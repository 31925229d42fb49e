import Lamcode.Proofs.Tree.Outcome

/-!
# Lamcode.Proofs.Tree.Inversion — how something was read

Where a reader read something, one of its branches was taken, and the conditions of that branch hold. There is one
relation for each reader, with one case for each branch, in terms of the readers that the branch calls.
-/

namespace Lamcode

namespace Read

/-- A value was read. -/
inductive ValueStep (last : Position) (margin : Nat) : List Lexeme → Expr Position → List Lexeme → Prop
  | unit {pos pos' : Position} {rest : List Lexeme}
    (inside : statementEnds margin (⟨.openBracket, pos⟩ :: ⟨.closeBracket, pos'⟩ :: rest) = false) :
    ValueStep last margin (⟨.openBracket, pos⟩ :: ⟨.closeBracket, pos'⟩ :: rest) (.tuple pos []) rest
  | tuple {pos : Position} {ts rest : List Lexeme} {es : List (Expr Position)}
    (inside : statementEnds margin (⟨.openBracket, pos⟩ :: ts) = false)
    (items : outcome (items last margin ts) = some (es, rest)) :
    ValueStep last margin (⟨.openBracket, pos⟩ :: ts) (.tuple pos es) rest
  | dollar {pos : Position} {ts rest : List Lexeme} {e : Expr Position}
    (inside : statementEnds margin (⟨.dollar, pos⟩ :: ts) = false)
    (inner : outcome (value last margin ts) = some (e, rest)) :
    ValueStep last margin (⟨.dollar, pos⟩ :: ts) (.group pos e) rest
  | alone {ts rest : List Lexeme} {e : Expr Position} (inside : statementEnds margin ts = false)
    (callee : outcome (callable last margin ts) = some (e, rest))
    (ends : argumentFollows margin e.mark.indent rest = false) : ValueStep last margin ts e rest
  | applied {ts us rest : List Lexeme} {f x : Expr Position} (inside : statementEnds margin ts = false)
    (callee : outcome (callable last margin ts) = some (f, us))
    (follows : argumentFollows margin f.mark.indent us = true)
    (argument : outcome (value last margin us) = some (x, rest)) : ValueStep last margin ts (f.apply x) rest

/-- Something that can be applied was read. -/
inductive CallableStep (last : Position) (margin : Nat) : List Lexeme → Expr Position → List Lexeme → Prop
  | function {x : String} {pos pos' : Position} {ts rest : List Lexeme} {e : Expr Position}
    (body : outcome (value last margin ts) = some (e, rest)) :
    CallableStep last margin (⟨.name x, pos⟩ :: ⟨.arrow, pos'⟩ :: ts) (.function pos x e) rest
  | name {x : String} {pos : Position} {rest : List Lexeme} (bare : ∀ t ∈ rest.head?, t.token ≠ .arrow) :
    CallableStep last margin (⟨.name x, pos⟩ :: rest) (.var pos x) rest
  | number {n : Int} {pos : Position} {rest : List Lexeme} :
    CallableStep last margin (⟨.number n, pos⟩ :: rest) (.number pos n) rest
  | group {pos pos' : Position} {ts rest : List Lexeme} {e : Expr Position}
    (inner : outcome (value last margin ts) = some (e, ⟨.closeParen, pos'⟩ :: rest)) :
    CallableStep last margin (⟨.openParen, pos⟩ :: ts) (.group pos e) rest

/-- The items of a tuple were read. -/
inductive ItemsStep (last : Position) (margin : Nat) : List Lexeme → List (Expr Position) → List Lexeme → Prop
  | more {pos : Position} {ts us rest : List Lexeme} {e : Expr Position} {es : List (Expr Position)}
    (item : outcome (value last margin ts) = some (e, ⟨.comma, pos⟩ :: us))
    (others : outcome (items last margin us) = some (es, rest)) : ItemsStep last margin ts (e :: es) rest
  | one {pos : Position} {ts rest : List Lexeme} {e : Expr Position}
    (item : outcome (value last margin ts) = some (e, ⟨.closeBracket, pos⟩ :: rest)) :
    ItemsStep last margin ts [e] rest

/-- An assignment was read. -/
inductive AssignmentStep (last : Position) : List Lexeme → Assignment Position → List Lexeme → Prop
  | closed {x : String} {pos pos' pos'' : Position} {ts rest : List Lexeme} {e : Expr Position}
    (value : outcome (value last pos.indent ts) = some (e, ⟨.semicolon, pos''⟩ :: rest)) :
    AssignmentStep last (⟨.name x, pos⟩ :: ⟨.equals, pos'⟩ :: ts) (.mk pos x e []) rest
  | block {x : String} {pos pos' pos'' : Position} {ts us rest : List Lexeme} {e : Expr Position}
    {cs : List (Assignment Position)} (value : outcome (value last pos.indent ts) = some (e, ⟨.whereMark, pos''⟩ :: us))
    (block : outcome (clauses last pos us) = some (cs, rest)) :
    AssignmentStep last (⟨.name x, pos⟩ :: ⟨.equals, pos'⟩ :: ts) (.mk pos x e cs) rest
  | plain {x : String} {pos pos' : Position} {ts rest : List Lexeme} {e : Expr Position}
    (value : outcome (value last pos.indent ts) = some (e, rest))
    (ends : ∀ t ∈ rest.head?, t.token ≠ .semicolon ∧ t.token ≠ .whereMark) :
    AssignmentStep last (⟨.name x, pos⟩ :: ⟨.equals, pos'⟩ :: ts) (.mk pos x e []) rest

/-- The clauses of a block were read. -/
inductive ClausesStep (last owner : Position) : List Lexeme → List (Assignment Position) → List Lexeme → Prop
  | more {ts us rest : List Lexeme} {a : Assignment Position} {cs : List (Assignment Position)}
    (clause : outcome (assignment last ts) = some (a, us)) (follows : clauseFollows owner a.mark us = true)
    (others : outcome (clauses last owner us) = some (cs, rest)) : ClausesStep last owner ts (a :: cs) rest
  | one {ts rest : List Lexeme} {a : Assignment Position} (clause : outcome (assignment last ts) = some (a, rest))
    (ends : clauseFollows owner a.mark rest = false) : ClausesStep last owner ts [a] rest

/-! ## The branch that was taken -/

/-- What is left is shorter than what there was. -/
theorem length_lt_of_outcome {ts rest : List Lexeme} {β : Type} {x : Except ReadError (Parsed ts β)} {b : β}
    (h : outcome x = some (b, rest)) : rest.length < ts.length := by
  cases x with
  | error e => cases h
  | ok p =>
    cases h
    exact p.shorter

theorem exists_of_outcome_bind {ts us : List Lexeme} {β γ : Type} {x : Except ReadError (Parsed ts β)}
    {f : Parsed ts β → Except ReadError (Parsed us γ)} {r : γ × List Lexeme} (h : outcome (x >>= f) = some r) :
    ∃ q, outcome x = some q := by
  cases x with
  | error e => cases h
  | ok p => exact ⟨_, rfl⟩

/-- The tokens go on with the given one or with another one, if with any. -/
theorem starts_or (token : Token) (ts : List Lexeme) :
    (∃ pos us, ts = ⟨token, pos⟩ :: us) ∨ ∀ t ∈ ts.head?, t.token ≠ token := by
  rcases ts with _ | ⟨⟨t, pos⟩, us⟩
  · exact .inr nofun
  · by_cases ht : t = token
    · exact .inl ⟨pos, us, by rw [ht]⟩
    · refine .inr fun t' ht' => ?_
      cases ht'
      exact ht

section

variable {last : Position} {margin : Nat} {ts rest : List Lexeme} {e : Expr Position}

theorem callableStep_of_outcome (h : outcome (callable last margin ts) = some (e, rest)) :
    CallableStep last margin ts e rest := by
  rcases ts with _ | ⟨⟨t, pos⟩, ts⟩
  · rw [callable.eq_def] at h
    cases h
  · cases t with
    | name x =>
      rcases starts_or .arrow ts with ⟨pos', us, rfl⟩ | hbare
      · rw [outcome_callable_function] at h
        obtain ⟨⟨body, rest⟩, hbody, ⟨⟩⟩ := Option.bind_eq_some_iff.1 h
        exact .function hbody
      · rw [outcome_callable_name hbare] at h
        cases h
        exact .name hbare
    | number n =>
      rw [outcome_callable_number] at h
      cases h
      exact .number
    | openParen =>
      rw [outcome_callable_group] at h
      obtain ⟨⟨inner, us⟩, hinner, h⟩ := Option.bind_eq_some_iff.1 h
      dsimp only at h
      split at h
      · cases h
        exact .group hinner
      · cases h
    | _ =>
      rw [callable.eq_def] at h
      cases h

theorem inside_of_outcome (h : outcome (value last margin ts) = some (e, rest)) : statementEnds margin ts = false := by
  cases hends : statementEnds margin ts with
  | false => rfl
  | true =>
    rw [value.eq_def, if_pos hends] at h
    cases ts <;> cases h

theorem valueStep_of_outcome (h : outcome (value last margin ts) = some (e, rest)) :
    ValueStep last margin ts e rest := by
  have hinside := inside_of_outcome h
  rcases ts with _ | ⟨⟨t, pos⟩, ts⟩
  · cases hinside
  · by_cases hcallable : startsCallable t = true
    · rw [outcome_value_callable hcallable hinside] at h
      obtain ⟨⟨f, us⟩, hcallee, h⟩ := Option.bind_eq_some_iff.1 h
      dsimp only at h
      split at h
      · next hfollows =>
        obtain ⟨⟨x, rest⟩, hargument, ⟨⟩⟩ := Option.bind_eq_some_iff.1 h
        exact .applied hinside hcallee hfollows hargument
      · next hends =>
        cases h
        exact .alone hinside hcallee (Bool.eq_false_iff.2 hends)
    · cases t with
      | openBracket =>
        rcases starts_or .closeBracket ts with ⟨pos', us, rfl⟩ | hopen
        · rw [outcome_value_nil hinside] at h
          cases h
          exact .unit hinside
        · rw [outcome_value_tuple hinside hopen] at h
          obtain ⟨⟨es, rest⟩, hitems, ⟨⟩⟩ := Option.bind_eq_some_iff.1 h
          exact .tuple hinside hitems
      | dollar =>
        rw [outcome_value_dollar hinside] at h
        obtain ⟨⟨inner, rest⟩, hinner, ⟨⟩⟩ := Option.bind_eq_some_iff.1 h
        exact .dollar hinside hinner
      | name | number | openParen => exact absurd rfl hcallable
      | _ =>
        -- No other token starts a value: the reader of callables fails on it.
        rw [value.eq_def, if_neg (Bool.eq_false_iff.1 hinside)] at h
        obtain ⟨⟨f, us⟩, hcallee⟩ := exists_of_outcome_bind h
        cases callableStep_of_outcome hcallee

theorem itemsStep_of_outcome {es : List (Expr Position)} (h : outcome (items last margin ts) = some (es, rest)) :
    ItemsStep last margin ts es rest := by
  rw [outcome_items] at h
  obtain ⟨⟨e, us⟩, hitem, h⟩ := Option.bind_eq_some_iff.1 h
  dsimp only at h
  split at h
  · obtain ⟨⟨es, rest⟩, hothers, ⟨⟩⟩ := Option.bind_eq_some_iff.1 h
    exact .more hitem hothers
  · cases h
    exact .one hitem
  · cases h

theorem assignmentStep_of_outcome {a : Assignment Position} (h : outcome (assignment last ts) = some (a, rest)) :
    AssignmentStep last ts a rest := by
  have hstart : ∃ x pos pos' us, ts = ⟨.name x, pos⟩ :: ⟨.equals, pos'⟩ :: us := by
    rw [assignment.eq_def] at h
    rcases ts with _ | ⟨⟨t, pos⟩, ts⟩
    · cases h
    · cases t with
      | name x =>
        rcases ts with _ | ⟨⟨t, pos'⟩, us⟩
        · cases h
        · cases t with
          | equals => exact ⟨x, pos, pos', us, rfl⟩
          | _ => cases h
      | _ => cases h
  obtain ⟨x, pos, pos', us, rfl⟩ := hstart
  rw [outcome_assignment] at h
  obtain ⟨⟨e, vs⟩, hvalue, h⟩ := Option.bind_eq_some_iff.1 h
  dsimp only at h
  split at h
  · cases h
    exact .closed hvalue
  · obtain ⟨⟨cs, rest⟩, hblock, ⟨⟩⟩ := Option.bind_eq_some_iff.1 h
    exact .block hvalue hblock
  · next hsemicolon hwhere =>
    cases h
    refine .plain hvalue fun t ht => ?_
    obtain ⟨vs', rfl⟩ := List.head?_eq_some_iff.1 ht
    refine ⟨fun heq => ?_, fun heq => ?_⟩
    · exact hsemicolon _ _ (by rw [← heq])
    · exact hwhere _ _ (by rw [← heq])

theorem clausesStep_of_outcome {owner : Position} {cs : List (Assignment Position)}
    (h : outcome (clauses last owner ts) = some (cs, rest)) : ClausesStep last owner ts cs rest := by
  rw [outcome_clauses] at h
  obtain ⟨⟨a, us⟩, hclause, h⟩ := Option.bind_eq_some_iff.1 h
  dsimp only at h
  split at h
  · next hfollows =>
    obtain ⟨⟨cs, rest⟩, hothers, ⟨⟩⟩ := Option.bind_eq_some_iff.1 h
    exact .more hclause hfollows hothers
  · next hends =>
    cases h
    exact .one hclause (Bool.eq_false_iff.2 hends)

end

end Read

end Lamcode
