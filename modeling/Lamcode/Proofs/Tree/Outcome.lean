import Lamcode.Proofs.Tree.Plain

/-!
# Lamcode.Proofs.Tree.Outcome — what the readers read and leave

The readers return what they read with the tokens behind it and a proof that these are fewer, or the reason why they
read nothing. `Read.outcome` keeps what is read and what is left. The lemmas here give it for each reader and each kind
of token in front, in terms of the readers it calls, and `Read.Reads` is the predicate for what a reader should do.
-/

namespace Lamcode

namespace Read

/-! ## The outcome of each reader -/

/-- What is read and what is left behind it, without the reason where nothing is read. -/
def outcome {ts : List Lexeme} {β : Type} : Except ReadError (Parsed ts β) → Option (β × List Lexeme)
  | .ok p => some (p.value, p.rest)
  | .error _ => none

theorem outcome_bind {ts us : List Lexeme} {β γ : Type} {x : Except ReadError (Parsed ts β)}
    {f : Parsed ts β → Except ReadError (Parsed us γ)} {g : β × List Lexeme → Option (γ × List Lexeme)}
    (h : ∀ p, outcome (f p) = g (p.value, p.rest)) : outcome (x >>= f) = (outcome x).bind g := by
  cases x with
  | error e => rfl
  | ok p => exact h p

/-- Whether something that can be applied starts with the token. -/
def startsCallable : Token → Bool
  | .name _ | .number _ | .openParen => true
  | _ => false

variable {last : Position} {margin : Nat} {ts : List Lexeme} {pos pos' : Position}

theorem outcome_value_nil (h : statementEnds margin (⟨.openBracket, pos⟩ :: ⟨.closeBracket, pos'⟩ :: ts) = false) :
    outcome (value last margin (⟨.openBracket, pos⟩ :: ⟨.closeBracket, pos'⟩ :: ts)) = some (.tuple pos [], ts) := by
  rw [value, if_neg (Bool.eq_false_iff.1 h)]
  rfl

theorem outcome_value_tuple (h : statementEnds margin (⟨.openBracket, pos⟩ :: ts) = false)
    (hts : ∀ t ∈ ts.head?, t.token ≠ .closeBracket) :
    outcome (value last margin (⟨.openBracket, pos⟩ :: ts)) =
      (outcome (items last margin ts)).bind fun r => some (.tuple pos r.1, r.2) := by
  rw [value.eq_def, if_neg (Bool.eq_false_iff.1 h)]
  rcases ts with _ | ⟨⟨t, pos'⟩, ts⟩
  · exact outcome_bind fun p => rfl
  · cases t
    case closeBracket => exact absurd rfl (hts _ rfl)
    all_goals exact outcome_bind fun p => rfl

theorem outcome_value_dollar (h : statementEnds margin (⟨.dollar, pos⟩ :: ts) = false) :
    outcome (value last margin (⟨.dollar, pos⟩ :: ts)) =
      (outcome (value last margin ts)).bind fun r => some (.group pos r.1, r.2) := by
  rw [value.eq_def, if_neg (Bool.eq_false_iff.1 h)]
  exact outcome_bind fun p => rfl

theorem outcome_value_callable {t : Token} (ht : startsCallable t = true)
    (h : statementEnds margin (⟨t, pos⟩ :: ts) = false) :
    outcome (value last margin (⟨t, pos⟩ :: ts)) =
      (outcome (callable last margin (⟨t, pos⟩ :: ts))).bind fun c =>
        if argumentFollows margin c.1.mark.indent c.2 then
          (outcome (value last margin c.2)).bind fun x => some (c.1.apply x.1, x.2)
        else some c := by
  rw [value.eq_def, if_neg (Bool.eq_false_iff.1 h)]
  cases t
  case name | number | openParen =>
    refine outcome_bind fun c => ?_
    dsimp only
    split
    · exact outcome_bind fun x => rfl
    · rfl
  all_goals cases ht

theorem outcome_callable_function {x : String} :
    outcome (callable last margin (⟨.name x, pos⟩ :: ⟨.arrow, pos'⟩ :: ts)) =
      (outcome (value last margin ts)).bind fun r => some (.function pos x r.1, r.2) := by
  rw [callable]
  exact outcome_bind fun p => rfl

theorem outcome_callable_name {x : String} (hts : ∀ t ∈ ts.head?, t.token ≠ .arrow) :
    outcome (callable last margin (⟨.name x, pos⟩ :: ts)) = some (.var pos x, ts) := by
  rw [callable.eq_def]
  rcases ts with _ | ⟨⟨t, pos'⟩, ts⟩
  · rfl
  · cases t
    case arrow => exact absurd rfl (hts _ rfl)
    all_goals rfl

theorem outcome_callable_number {n : Int} :
    outcome (callable last margin (⟨.number n, pos⟩ :: ts)) = some (.number pos n, ts) := by
  rw [callable]
  rfl

theorem outcome_callable_group :
    outcome (callable last margin (⟨.openParen, pos⟩ :: ts)) =
      (outcome (value last margin ts)).bind fun r =>
        match r.2 with
        | ⟨.closeParen, _⟩ :: rest => some (.group pos r.1, rest)
        | _ => none := by
  rw [callable]
  refine outcome_bind fun p => ?_
  obtain ⟨e, rest, hshorter⟩ := p
  rcases rest with _ | ⟨⟨t, pos'⟩, rest⟩
  · rfl
  · cases t <;> rfl

theorem outcome_items :
    outcome (items last margin ts) =
      (outcome (value last margin ts)).bind fun r =>
        match r.2 with
        | ⟨.comma, _⟩ :: rest => (outcome (items last margin rest)).bind fun more => some (r.1 :: more.1, more.2)
        | ⟨.closeBracket, _⟩ :: rest => some ([r.1], rest)
        | _ => none := by
  rw [items]
  refine outcome_bind fun p => ?_
  obtain ⟨e, rest, hshorter⟩ := p
  rcases rest with _ | ⟨⟨t, pos'⟩, rest⟩
  · rfl
  · cases t
    case comma => exact outcome_bind fun more => rfl
    all_goals rfl

theorem outcome_assignment {x : String} :
    outcome (assignment last (⟨.name x, pos⟩ :: ⟨.equals, pos'⟩ :: ts)) =
      (outcome (value last pos.indent ts)).bind fun r =>
        match r.2 with
        | ⟨.semicolon, _⟩ :: rest => some (.mk pos x r.1 [], rest)
        | ⟨.whereMark, _⟩ :: rest =>
          (outcome (clauses last pos rest)).bind fun block => some (.mk pos x r.1 block.1, block.2)
        | rest => some (.mk pos x r.1 [], rest) := by
  rw [assignment]
  refine outcome_bind fun p => ?_
  obtain ⟨e, rest, hshorter⟩ := p
  rcases rest with _ | ⟨⟨t, pos'⟩, rest⟩
  · rfl
  · cases t
    case whereMark => exact outcome_bind fun block => rfl
    all_goals rfl

theorem outcome_clauses {owner : Position} :
    outcome (clauses last owner ts) =
      (outcome (assignment last ts)).bind fun c =>
        if clauseFollows owner c.1.mark c.2 then
          (outcome (clauses last owner c.2)).bind fun more => some (c.1 :: more.1, more.2)
        else some ([c.1], c.2) := by
  rw [clauses]
  refine outcome_bind fun c => ?_
  dsimp only
  split
  · exact outcome_bind fun more => rfl
  · rfl

/-- What is read where nothing may be left. -/
def outcomeAll {β : Type} : Except ReadError β → Option (β × List Lexeme)
  | .ok x => some (x, [])
  | .error _ => none

theorem outcomeAll_assignments_nil : outcomeAll (assignments last []) = some ([], []) := by
  rw [assignments]
  rfl

theorem outcomeAll_assignments_cons {t : Lexeme} :
    outcomeAll (assignments last (t :: ts)) =
      (outcome (assignment last (t :: ts))).bind fun a =>
        (outcomeAll (assignments last a.2)).bind fun more => some (a.1 :: more.1, more.2) := by
  rw [assignments]
  cases assignment last (t :: ts) with
  | error e => rfl
  | ok a =>
    show outcomeAll (assignments last a.rest >>= _) = (outcomeAll (assignments last a.rest)).bind _
    cases assignments last a.rest <;> rfl

/-! ## The outcome that there should be -/

/-- Something with the property is read and the rest is left, if the reading should succeed; otherwise nothing is
read. -/
inductive Reads {β : Type} (P : β → Prop) (rest : List Lexeme) : Bool → Option (β × List Lexeme) → Prop
  | some {x : β} (h : P x) : Reads P rest true (some (x, rest))
  | none : Reads P rest false none

namespace Reads

variable {β γ : Type} {P : β → Prop} {Q : γ → Prop} {rest rest' : List Lexeme} {good good' : Bool}
  {r : Option (β × List Lexeme)} {g : β × List Lexeme → Option (γ × List Lexeme)}

theorem bind (h : Reads P rest good r) (k : ∀ x, P x → Reads Q rest' good' (g (x, rest))) :
    Reads Q rest' (good && good') (r.bind g) := by
  cases h with
  | some h => exact k _ h
  | none => exact .none

theorem imp {P' : β → Prop} (h : Reads P rest good r) (k : ∀ x, P x → P' x) : Reads P' rest good r := by
  cases h with
  | some h => exact .some (k _ h)
  | none => exact .none

/-- A step that cannot fail. -/
theorem andThen (h : Reads P rest good r) (k : ∀ x, P x → Reads Q rest' true (g (x, rest))) :
    Reads Q rest' good (r.bind g) := by
  rw [← Bool.and_true good]
  exact h.bind k

/-- A step that always fails. -/
theorem fails (h : Reads P rest good r) (k : ∀ x, P x → g (x, rest) = Option.none) :
    Reads Q rest' false (r.bind g) := by
  rw [← Bool.and_false good]
  refine h.bind fun x hx => ?_
  rw [k x hx]
  exact .none

/-- Where everything is read, the reading succeeds just if it should. -/
theorem of_all {x : Except ReadError β} (h : Reads P rest good (outcomeAll x)) :
    ((∃ b, x = .ok b) ↔ good = true) ∧ ∀ b, x = .ok b → P b := by
  cases x with
  | error e =>
    cases h
    exact ⟨⟨nofun, nofun⟩, nofun⟩
  | ok b =>
    cases h with
    | some h =>
      refine ⟨⟨fun _ => rfl, fun _ => ⟨b, rfl⟩⟩, ?_⟩
      rintro _ ⟨⟩
      exact h

end Reads

end Read

end Lamcode
