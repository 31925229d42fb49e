import Lamcode.Proofs.Tree.Inversion

/-!
# Lamcode.Proofs.Tree.Grammar — how expressions are spelled

The grammar of expressions as relations between tokens and trees, without layout and without the order in which the
readers look at tokens. What a reader takes off its tokens always spells what it returns (`exists_spells`). On one line
there is no layout to end a value, and then what is spelled is read (`outcome_value_of_spells`).

A value is followed by how it ends: with a tuple, which takes no argument, or with an atom.
-/

namespace Lamcode

namespace Expr

variable {α : Type}

@[simp] theorem mark_apply (f x : Expr α) : (f.apply x).mark = f.mark := by
  cases x <;> rfl

end Expr

namespace Read

/-- How a value ends. -/
inductive Ending where
  /-- With a tuple. What comes next is no argument of the tuple, but it can be one of a function whose body ends with
  it; `whole` says that there is no such function. -/
  | tuple (whole : Bool)
  /-- With a variable, a number or a group in parentheses that starts at a position. -/
  | atom (start : Position)
  deriving DecidableEq

/-- How a function ends whose body ends in some way. -/
def Ending.ofBody : Ending → Ending
  | .tuple _ => .tuple false
  | .atom start => .atom start

mutual

/-- The tokens spell a value with an ending. On one line (`line`) the body of a function goes on as far as it can, so
that a function is applied only if its body is a tuple or ends with one. -/
inductive SpellsValue (line : Prop) : List Lexeme → Expr Position → Ending → Prop
  | unit (pos pos' : Position) :
    SpellsValue line [⟨.openBracket, pos⟩, ⟨.closeBracket, pos'⟩] (.tuple pos []) (.tuple true)
  | tuple (pos : Position) {ts : List Lexeme} {es : List (Expr Position)} : SpellsItems line ts es →
    SpellsValue line (⟨.openBracket, pos⟩ :: ts) (.tuple pos es) (.tuple true)
  | dollar (pos : Position) {ts : List Lexeme} {e : Expr Position} {ending : Ending} :
    SpellsValue line ts e ending → SpellsValue line (⟨.dollar, pos⟩ :: ts) (.group pos e) ending
  | atom {ts : List Lexeme} {e : Expr Position} : SpellsAtom line ts e → SpellsValue line ts e (.atom e.mark)
  | applied {ts us : List Lexeme} {f x : Expr Position} {ending : Ending} : SpellsAtom line ts f →
    SpellsValue line us x ending → SpellsValue line (ts ++ us) (f.apply x) ending
  | function (x : String) (pos pos' : Position) {ts : List Lexeme} {e : Expr Position} {ending : Ending} :
    SpellsValue line ts e ending →
    SpellsValue line (⟨.name x, pos⟩ :: ⟨.arrow, pos'⟩ :: ts) (.function pos x e) ending.ofBody
  | called (x : String) (pos pos' : Position) {ts us : List Lexeme} {e a : Expr Position} {ending ending' : Ending} :
    SpellsValue line ts e ending → (line → ending = .tuple true) → SpellsValue line us a ending' →
    SpellsValue line (⟨.name x, pos⟩ :: ⟨.arrow, pos'⟩ :: (ts ++ us)) ((Expr.function pos x e).apply a) ending'

/-- The tokens spell a variable, a number or a group in parentheses. -/
inductive SpellsAtom (line : Prop) : List Lexeme → Expr Position → Prop
  | name (x : String) (pos : Position) : SpellsAtom line [⟨.name x, pos⟩] (.var pos x)
  | number (n : Int) (pos : Position) : SpellsAtom line [⟨.number n, pos⟩] (.number pos n)
  | group (pos pos' : Position) {ts : List Lexeme} {e : Expr Position} {ending : Ending} :
    SpellsValue line ts e ending →
    SpellsAtom line (⟨.openParen, pos⟩ :: (ts ++ [⟨.closeParen, pos'⟩])) (.group pos e)

/-- The tokens spell the items of a tuple, at least one, and the bracket that closes it. -/
inductive SpellsItems (line : Prop) : List Lexeme → List (Expr Position) → Prop
  | more (pos : Position) {ts us : List Lexeme} {e : Expr Position} {es : List (Expr Position)} {ending : Ending} :
    SpellsValue line ts e ending → SpellsItems line us es → SpellsItems line (ts ++ ⟨.comma, pos⟩ :: us) (e :: es)
  | one (pos : Position) {ts : List Lexeme} {e : Expr Position} {ending : Ending} : SpellsValue line ts e ending →
    SpellsItems line (ts ++ [⟨.closeBracket, pos⟩]) [e]

end

variable {line : Prop} {ts us rest : List Lexeme} {e : Expr Position} {es : List (Expr Position)} {ending : Ending}

/-! ## First and last tokens -/

theorem SpellsAtom.exists_first (h : SpellsAtom line ts e) :
    ∃ t us, ts = t :: us ∧ startsCallable t.token = true ∧ e.mark = t.pos := by
  cases h with
  | name x pos => exact ⟨_, _, rfl, rfl, rfl⟩
  | number n pos => exact ⟨_, _, rfl, rfl, rfl⟩
  | group _ _ _ => exact ⟨_, _, rfl, rfl, rfl⟩

theorem startsValue_of_startsCallable {t : Token} (h : startsCallable t = true) : startsValue t = true := by
  cases t <;> first | rfl | cases h

theorem ne_of_startsValue {t t' : Token} (h : startsValue t = true) (h' : startsValue t' = false) : t ≠ t' := by
  rintro rfl
  rw [h] at h'
  cases h'

/-- A value starts with a token that values start with, and has its position. -/
theorem SpellsValue.exists_first (h : SpellsValue line ts e ending) :
    ∃ t us, ts = t :: us ∧ startsValue t.token = true ∧ e.mark = t.pos := by
  cases h with
  | unit _ _ => exact ⟨_, _, rfl, rfl, rfl⟩
  | tuple _ _ => exact ⟨_, _, rfl, rfl, rfl⟩
  | dollar _ _ => exact ⟨_, _, rfl, rfl, rfl⟩
  | atom hatom =>
    obtain ⟨t, us, hts, hstarts, hmark⟩ := hatom.exists_first
    exact ⟨t, us, hts, startsValue_of_startsCallable hstarts, hmark⟩
  | applied hatom _ =>
    obtain ⟨t, us, rfl, hstarts, hmark⟩ := hatom.exists_first
    exact ⟨t, _, rfl, startsValue_of_startsCallable hstarts, by rw [Expr.mark_apply, hmark]⟩
  | function _ _ _ _ => exact ⟨_, _, rfl, rfl, rfl⟩
  | called _ _ _ _ _ _ => exact ⟨_, _, rfl, rfl, by rw [Expr.mark_apply]; rfl⟩

theorem SpellsItems.exists_first (h : SpellsItems line ts es) :
    ∃ t us, ts = t :: us ∧ startsValue t.token = true := by
  cases h with
  | more _ hvalue _ =>
    obtain ⟨t, us, rfl, hstarts, -⟩ := hvalue.exists_first
    exact ⟨t, _, rfl, hstarts⟩
  | one _ hvalue =>
    obtain ⟨t, us, rfl, hstarts, -⟩ := hvalue.exists_first
    exact ⟨t, _, rfl, hstarts⟩

theorem SpellsItems.exists_last {ts : List Lexeme} {es : List (Expr Position)} (h : SpellsItems line ts es) :
    ∃ us pos, ts = us ++ [⟨.closeBracket, pos⟩] := by
  cases h with
  | @more pos ts _ _ _ _ _ hitems =>
    obtain ⟨us, pos', rfl⟩ := hitems.exists_last
    exact ⟨ts ++ ⟨.comma, pos⟩ :: us, pos', by simp⟩
  | one _ _ => exact ⟨_, _, rfl⟩

/-- Whether the ending is a tuple. -/
def Ending.isTuple : Ending → Bool
  | .tuple _ => true
  | .atom _ => false

theorem Ending.isTuple_ofBody (ending : Ending) : ending.ofBody.isTuple = ending.isTuple := by
  cases ending <;> rfl

/-- The last token of a value is a closing bracket just if the value ends with a tuple. -/
theorem SpellsValue.exists_last {ts : List Lexeme} {e : Expr Position} {ending : Ending} :
    SpellsValue line ts e ending →
    ∃ us t, ts = us ++ [t] ∧ (t.token = .closeBracket ↔ ending.isTuple = true)
  | unit pos _ => ⟨[⟨.openBracket, pos⟩], _, rfl, by simp [Ending.isTuple]⟩
  | tuple pos hitems => by
    obtain ⟨us, pos', rfl⟩ := hitems.exists_last
    exact ⟨⟨.openBracket, pos⟩ :: us, _, rfl, by simp [Ending.isTuple]⟩
  | dollar pos hvalue => by
    obtain ⟨us, t, rfl, hlast⟩ := hvalue.exists_last
    exact ⟨⟨.dollar, pos⟩ :: us, t, rfl, hlast⟩
  | atom hatom => by
    cases hatom with
    | name x pos => exact ⟨[], _, rfl, by simp [Ending.isTuple]⟩
    | number n pos => exact ⟨[], _, rfl, by simp [Ending.isTuple]⟩
    | @group pos pos' ts _ _ _ => exact ⟨⟨.openParen, pos⟩ :: ts, _, rfl, by simp [Ending.isTuple]⟩
  | @applied _ ts _ _ _ _ _ hvalue => by
    obtain ⟨us, t, rfl, hlast⟩ := hvalue.exists_last
    exact ⟨ts ++ us, t, by rw [List.append_assoc], hlast⟩
  | function x pos pos' hvalue => by
    obtain ⟨us, t, rfl, hlast⟩ := hvalue.exists_last
    exact ⟨⟨.name x, pos⟩ :: ⟨.arrow, pos'⟩ :: us, t, rfl, by rw [Ending.isTuple_ofBody, hlast]⟩
  | @called _ x pos pos' ts _ _ _ _ _ _ _ hvalue => by
    obtain ⟨us, t, rfl, hlast⟩ := hvalue.exists_last
    exact ⟨⟨.name x, pos⟩ :: ⟨.arrow, pos'⟩ :: (ts ++ us), t, by simp, hlast⟩

/-! ## What is spelled on one line is read -/

/-- The tokens stand behind others on a line with the indent. -/
def OnLine (indent : Nat) (ts : List Lexeme) : Prop :=
  ∀ t ∈ ts, t.pos.opensLine = false ∧ t.pos.indent = indent

/-- What comes behind a value does not go on with it. -/
structure Ends (margin indent : Nat) (ending : Ending) (rest : List Lexeme) : Prop where
  argument : ending = .tuple true ∨ argumentFollows margin indent rest = false
  arrow : ∀ t ∈ rest.head?, t.token ≠ .arrow

section Line

variable {last : Position} {margin indent : Nat}

theorem OnLine.append (h : OnLine indent (ts ++ us)) : OnLine indent ts ∧ OnLine indent us :=
  List.forall_mem_append.1 h

theorem OnLine.tail {t : Lexeme} (h : OnLine indent (t :: ts)) : OnLine indent ts :=
  (List.forall_mem_cons.1 h).2

theorem OnLine.inside {t : Lexeme} (h : OnLine indent (t :: ts)) (rest : List Lexeme) :
    statementEnds margin (t :: rest) = false := by
  simp [statementEnds, (h t (.head _)).1]

/-- A value on the line is an argument of what stands in front of it. -/
theorem SpellsValue.argumentFollows (h : SpellsValue line ts e ending) (hline : OnLine indent ts)
    (rest : List Lexeme) : argumentFollows margin indent (ts ++ rest) = true := by
  obtain ⟨t, us, rfl, hstarts, -⟩ := h.exists_first
  obtain ⟨hopens, hindent⟩ := hline t (.head _)
  simp [Read.argumentFollows, statementEnds, hstarts, hopens, hindent]

theorem SpellsValue.not_arrow (h : SpellsValue line ts e ending) (rest : List Lexeme) :
    ∀ t ∈ (ts ++ rest).head?, t.token ≠ .arrow := by
  obtain ⟨t, us, rfl, hstarts, -⟩ := h.exists_first
  rintro _ ⟨⟩
  exact ne_of_startsValue hstarts rfl

/-- A token that starts no value and is no arrow ends every value. -/
theorem ends_cons (t : Token) (pos : Position) (ts : List Lexeme) (h : startsValue t = false) (h' : t ≠ .arrow) :
    Ends margin indent ending (⟨t, pos⟩ :: ts) where
  argument := .inr (by simp [argumentFollows, h])
  arrow := by simpa using h'

theorem SpellsAtom.mark_indent (h : SpellsAtom line ts e) (hline : OnLine indent ts) : e.mark.indent = indent := by
  obtain ⟨t, us, rfl, -, hmark⟩ := h.exists_first
  rw [hmark]
  exact (hline t (.head _)).2

theorem outcome_value_alone {t : Lexeme} {f : Expr Position} (ht : startsCallable t.token = true)
    (h : OnLine indent (t :: ts)) (hcallable : outcome (callable last margin (t :: us)) = some (f, rest))
    (hfollows : argumentFollows margin f.mark.indent rest = false) :
    outcome (value last margin (t :: us)) = some (f, rest) := by
  rw [outcome_value_callable ht (h.inside us), hcallable]
  simp only [Option.bind_some, hfollows, Bool.false_eq_true, if_false]

theorem outcome_value_applied {t : Lexeme} {f x : Expr Position} {rest' : List Lexeme}
    (ht : startsCallable t.token = true) (h : OnLine indent (t :: ts))
    (hcallable : outcome (callable last margin (t :: us)) = some (f, rest))
    (hfollows : argumentFollows margin f.mark.indent rest = true)
    (hvalue : outcome (value last margin rest) = some (x, rest')) :
    outcome (value last margin (t :: us)) = some (f.apply x, rest') := by
  rw [outcome_value_callable ht (h.inside us), hcallable]
  simp only [Option.bind_some, hfollows, if_true, hvalue]

theorem SpellsItems.not_closeBracket (h : SpellsItems line ts es) (rest : List Lexeme) :
    ∀ t ∈ (ts ++ rest).head?, t.token ≠ .closeBracket := by
  obtain ⟨t, us, rfl, hstarts⟩ := h.exists_first
  rintro _ ⟨⟩
  exact ne_of_startsValue hstarts rfl

/-- Where a function ends, its body ends, and no argument follows. -/
theorem Ends.of_ofBody (h : Ends margin indent ending.ofBody rest) :
    Ends margin indent ending rest ∧ argumentFollows margin indent rest = false := by
  have hfollows : argumentFollows margin indent rest = false := h.argument.resolve_left (by cases ending <;> nofun)
  exact ⟨⟨.inr hfollows, h.arrow⟩, hfollows⟩

mutual

/-- A value on one line is read up to where it ends. -/
theorem outcome_value_of_spells {ts rest : List Lexeme} {e : Expr Position} {ending : Ending} :
    SpellsValue True ts e ending → OnLine indent ts → Ends margin indent ending rest →
    outcome (value last margin (ts ++ rest)) = some (e, rest)
  | .unit _ _, hline, _ => outcome_value_nil (hline.inside _)
  | @SpellsValue.tuple _ pos ts es hitems, hline, _ => by
    have hread : outcome (items last margin (ts ++ rest)) = some (es, rest) :=
      outcome_items_of_spells hitems hline.tail
    rw [List.cons_append, outcome_value_tuple (hline.inside _) (hitems.not_closeBracket rest), hread]
    rfl
  | .dollar pos hvalue, hline, hrest => by
    have hread := outcome_value_of_spells hvalue hline.tail hrest
    rw [List.cons_append, outcome_value_dollar (hline.inside _), hread]
    rfl
  | @SpellsValue.atom _ ts f hatom, hline, hrest => by
    have hread : outcome (callable last margin (ts ++ rest)) = some (f, rest) :=
      outcome_callable_of_spells hatom hline hrest.arrow
    have hindent := hatom.mark_indent hline
    obtain ⟨t, us, rfl, hstarts, -⟩ := hatom.exists_first
    exact outcome_value_alone hstarts hline hread (hindent ▸ hrest.argument.resolve_left nofun)
  | @SpellsValue.applied _ ts us f x _ hatom hvalue, hline, hrest => by
    obtain ⟨hts, hus⟩ := hline.append
    have hf : outcome (callable last margin (ts ++ (us ++ rest))) = some (f, us ++ rest) :=
      outcome_callable_of_spells hatom hts (hvalue.not_arrow rest)
    have hx := outcome_value_of_spells hvalue hus hrest
    have hfollows : argumentFollows margin f.mark.indent (us ++ rest) = true :=
      hatom.mark_indent hts ▸ hvalue.argumentFollows hus rest
    obtain ⟨t, ts, rfl, hstarts, -⟩ := hatom.exists_first
    rw [List.append_assoc]
    exact outcome_value_applied hstarts hts hf hfollows hx
  | @SpellsValue.function _ x pos pos' ts e _ hvalue, hline, hrest => by
    obtain ⟨hbody, hfollows⟩ := hrest.of_ofBody
    have hread := outcome_value_of_spells hvalue hline.tail.tail hbody
    have hindent : pos.indent = indent := (hline _ (.head _)).2
    refine outcome_value_alone rfl hline ?_ (hindent ▸ hfollows)
    rw [List.append_eq, List.cons_append, outcome_callable_function, hread]
    rfl
  | @SpellsValue.called _ x pos pos' ts us e a _ _ hvalue hclosed hargument, hline, hrest => by
    obtain ⟨hts, hus⟩ := hline.tail.tail.append
    -- the body is closed by its tuple, so that what follows is left to the function
    have hread := outcome_value_of_spells hvalue hts ⟨.inl (hclosed trivial), hargument.not_arrow rest⟩
    have hindent : pos.indent = indent := (hline _ (.head _)).2
    have hfollows : argumentFollows margin pos.indent (us ++ rest) = true :=
      hindent ▸ hargument.argumentFollows hus rest
    refine outcome_value_applied rfl hline ?_ hfollows (outcome_value_of_spells hargument hus hrest)
    rw [List.append_eq, List.cons_append, List.append_assoc, outcome_callable_function, hread]
    rfl

theorem outcome_callable_of_spells {ts rest : List Lexeme} {e : Expr Position} :
    SpellsAtom True ts e → OnLine indent ts → (∀ t ∈ rest.head?, t.token ≠ .arrow) →
    outcome (callable last margin (ts ++ rest)) = some (e, rest)
  | .name x pos, _, hrest => outcome_callable_name hrest
  | .number n pos, _, _ => outcome_callable_number
  | @SpellsAtom.group _ pos pos' ts e ending hvalue, hline, _ => by
    have hread : outcome (value last margin (ts ++ ⟨.closeParen, pos'⟩ :: rest)) =
        some (e, ⟨.closeParen, pos'⟩ :: rest) :=
      outcome_value_of_spells hvalue hline.tail.append.1 (ends_cons _ _ _ rfl (by decide))
    rw [List.cons_append, List.append_assoc, outcome_callable_group, List.singleton_append, hread]
    rfl

theorem outcome_items_of_spells {ts rest : List Lexeme} {es : List (Expr Position)} :
    SpellsItems True ts es → OnLine indent ts → outcome (items last margin (ts ++ rest)) = some (es, rest)
  | @SpellsItems.more _ pos ts us e es ending hvalue hitems, hline => by
    have hread : outcome (value last margin (ts ++ ⟨.comma, pos⟩ :: (us ++ rest))) =
        some (e, ⟨.comma, pos⟩ :: (us ++ rest)) :=
      outcome_value_of_spells hvalue hline.append.1 (ends_cons _ _ _ rfl (by decide))
    have hmore : outcome (items last margin (us ++ rest)) = some (es, rest) :=
      outcome_items_of_spells hitems hline.append.2.tail
    rw [List.append_assoc, List.cons_append, outcome_items, hread]
    simp only [Option.bind_some, hmore]
  | @SpellsItems.one _ pos ts e ending hvalue, hline => by
    have hread : outcome (value last margin (ts ++ ⟨.closeBracket, pos⟩ :: rest)) =
        some (e, ⟨.closeBracket, pos⟩ :: rest) :=
      outcome_value_of_spells hvalue hline.append.1 (ends_cons _ _ _ rfl (by decide))
    rw [List.append_assoc, List.singleton_append, outcome_items, hread]
    rfl

end

end Line

/-! ## What is read is spelled -/

/-- What holds of tokens if it holds of all that are fewer: each reader calls others on fewer tokens, or calls one that
does. -/
theorem tokens_induction {P : List Lexeme → Prop}
    (step : ∀ ts, (∀ us : List Lexeme, us.length < ts.length → P us) → P ts) (ts : List Lexeme) : P ts := by
  induction hlength : ts.length using Nat.strongRecOn generalizing ts with
  | ind n ih =>
    subst hlength
    exact step ts fun us hus => ih _ hus us rfl

/-- A value that was read ends where its last atom takes no argument. On one line that is where no argument follows at
all, unless the value ends with a tuple. -/
structure Stopped (line : Prop) (margin indent : Nat) (ending : Ending) (rest : List Lexeme) : Prop where
  atom : ∀ start, ending = .atom start → argumentFollows margin start.indent rest = false
  line : line → ending = .tuple true ∨ argumentFollows margin indent rest = false

/-- What is read from the tokens as a value or as the items of a tuple is spelled by those that are taken off. -/
structure Spelled (line : Prop) (last : Position) (margin indent : Nat) (ts : List Lexeme) : Prop where
  value : ∀ {e : Expr Position} {rest : List Lexeme}, outcome (value last margin ts) = some (e, rest) →
    ∃ vs ending, ts = vs ++ rest ∧ SpellsValue line vs e ending ∧ Stopped line margin indent ending rest
  items : ∀ {es : List (Expr Position)} {rest : List Lexeme}, outcome (items last margin ts) = some (es, rest) →
    ∃ vs, ts = vs ++ rest ∧ SpellsItems line vs es

section

variable {last : Position} {margin indent : Nat}

theorem Stopped.ofBody {pos : Position} (h : Stopped line margin indent ending rest)
    (hpos : line → pos.indent = indent) (hends : argumentFollows margin pos.indent rest = false) :
    Stopped line margin indent ending.ofBody rest where
  atom start hstart := h.atom start (by cases ending <;> simp_all [Ending.ofBody])
  line hline := .inr (hpos hline ▸ hends)

/-- What can be applied is an atom or a function. -/
theorem spells_of_callable {f : Expr Position} (hline : line → OnLine indent ts)
    (ih : ∀ us : List Lexeme, us.length < ts.length → (line → OnLine indent us) → Spelled line last margin indent us)
    (h : outcome (callable last margin ts) = some (f, rest)) :
    (∃ vs, ts = vs ++ rest ∧ SpellsAtom line vs f) ∨
      ∃ x pos pos' vs body ending, ts = ⟨.name x, pos⟩ :: ⟨.arrow, pos'⟩ :: (vs ++ rest) ∧ f = .function pos x body ∧
        SpellsValue line vs body ending ∧ Stopped line margin indent ending rest := by
  cases callableStep_of_outcome h with
  | @function x pos pos' us _ body hbody =>
    obtain ⟨vs, ending, rfl, hspells, hstops⟩ :=
      (ih us (Nat.lt_succ_of_lt (Nat.lt_succ_self _)) fun h => (hline h).tail.tail).value hbody
    exact .inr ⟨x, pos, pos', vs, body, ending, rfl, rfl, hspells, hstops⟩
  | name _ => exact .inl ⟨_, rfl, .name _ _⟩
  | number => exact .inl ⟨_, rfl, .number _ _⟩
  | @group pos pos' us _ inner hinner =>
    obtain ⟨vs, ending, rfl, hspells, -⟩ := (ih us (Nat.lt_succ_self _) fun h => (hline h).tail).value hinner
    exact .inl ⟨⟨.openParen, pos⟩ :: (vs ++ [⟨.closeParen, pos'⟩]), by simp, .group pos pos' hspells⟩

theorem spells_of_value (hline : line → OnLine indent ts)
    (ih : ∀ us : List Lexeme, us.length < ts.length → (line → OnLine indent us) → Spelled line last margin indent us)
    (h : outcome (value last margin ts) = some (e, rest)) :
    ∃ vs ending, ts = vs ++ rest ∧ SpellsValue line vs e ending ∧ Stopped line margin indent ending rest := by
  cases valueStep_of_outcome h with
  | unit _ => exact ⟨_, _, rfl, .unit _ _, nofun, fun _ => .inl rfl⟩
  | @tuple pos us _ es _ hitems =>
    obtain ⟨vs, rfl, hspells⟩ := (ih us (Nat.lt_succ_self _) fun h => (hline h).tail).items hitems
    exact ⟨_, _, rfl, .tuple pos hspells, nofun, fun _ => .inl rfl⟩
  | @dollar pos us _ inner _ hinner =>
    obtain ⟨vs, ending, rfl, hspells, hstops⟩ := (ih us (Nat.lt_succ_self _) fun h => (hline h).tail).value hinner
    exact ⟨_, _, rfl, .dollar pos hspells, hstops⟩
  | alone _ hcallee hends =>
    obtain ⟨vs, rfl, hatom⟩ | ⟨x, pos, pos', vs, body, ending, rfl, rfl, hspells, hstops⟩ :=
      spells_of_callable hline ih hcallee
    · refine ⟨vs, _, rfl, .atom hatom, ?_, fun h => .inr ?_⟩
      · rintro _ ⟨⟩
        exact hends
      · rw [← hatom.mark_indent (hline h).append.1]
        exact hends
    · exact ⟨_, _, rfl, .function x pos pos' hspells, hstops.ofBody (fun h => (hline h _ (.head _)).2) hends⟩
  | @applied _ us _ f x _ hcallee hfollows hargument =>
    have hshorter := length_lt_of_outcome hcallee
    obtain ⟨vs, rfl, hatom⟩ | ⟨y, pos, pos', vs, body, ending, rfl, rfl, hspells, hstops⟩ :=
      spells_of_callable hline ih hcallee
    · obtain ⟨ws, ending, rfl, hargument, hstops⟩ := (ih us hshorter fun h => (hline h).append.2).value hargument
      exact ⟨_, _, (List.append_assoc ..).symm, .applied hatom hargument, hstops⟩
    · obtain ⟨ws, ending', rfl, hargument, hstops'⟩ :=
        (ih us hshorter fun h => (hline h).tail.tail.append.2).value hargument
      refine ⟨⟨.name y, pos⟩ :: ⟨.arrow, pos'⟩ :: (vs ++ ws), ending', by simp, ?_, hstops'⟩
      refine .called y pos pos' hspells (fun h => (hstops.line h).resolve_right ?_) hargument
      · -- what follows is an argument of the function, so on its line it would be one of the body's last atom
        rw [← (hline h _ (.head _)).2]
        exact Bool.ne_false_iff.2 hfollows

theorem spells_of_items (hline : line → OnLine indent ts)
    (ih : ∀ us : List Lexeme, us.length < ts.length → (line → OnLine indent us) → Spelled line last margin indent us)
    (h : outcome (items last margin ts) = some (es, rest)) : ∃ vs, ts = vs ++ rest ∧ SpellsItems line vs es := by
  cases itemsStep_of_outcome h with
  | @more pos _ us _ e es hitem hothers =>
    have hshorter : us.length < ts.length := Nat.lt_of_succ_lt (length_lt_of_outcome hitem)
    obtain ⟨vs, ending, rfl, hspells, -⟩ := spells_of_value hline ih hitem
    obtain ⟨ws, rfl, hspells'⟩ := (ih us hshorter fun h => (hline h).append.2.tail).items hothers
    exact ⟨vs ++ ⟨.comma, pos⟩ :: ws, by simp, .more pos hspells hspells'⟩
  | @one pos _ _ e hitem =>
    obtain ⟨vs, ending, rfl, hspells, -⟩ := spells_of_value hline ih hitem
    exact ⟨vs ++ [⟨.closeBracket, pos⟩], by simp, .one pos hspells⟩

end

/-- The readers take off tokens that spell what they return, on one line as the grammar of lines has it. -/
theorem exists_spells (last : Position) (margin : Nat) {indent : Nat} {ts : List Lexeme}
    (hline : line → OnLine indent ts) : Spelled line last margin indent ts :=
  tokens_induction (P := fun ts => (line → OnLine indent ts) → Spelled line last margin indent ts)
    (fun _ ih hline => ⟨spells_of_value hline ih, spells_of_items hline ih⟩) ts hline

end Read

end Lamcode
