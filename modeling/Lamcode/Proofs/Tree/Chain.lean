import Lamcode.Proofs.Result
import Lamcode.Proofs.Scope.Threading
import Lamcode.Proofs.Token.Order
import Lamcode.Proofs.Tree.Grammar
import Lamcode.Proofs.Tree.Landmarks

/-!
# Lamcode.Proofs.Tree.Chain — applications written on one line

A chain of applications is read from its right end: what comes first is applied to the value of all that follows, and
`Expr.apply` turns the application around. For chains of any length this gives the application that nests to the left
(`Expr.apply_chain`). A tuple takes no argument, so the value ends with the first tuple of the chain. If more of the
chain follows, a statement is wanted there, and there is none. The main statement is `Program.parse_chain`.
-/

namespace Lamcode

namespace Expr

/-- Applies a function to one argument after the other. -/
def chain (f : Expr Position) (xs : List (Expr Position)) : Expr Position :=
  xs.foldl (fun g x => .call g.mark g x) f

theorem apply_chain (f g : Expr Position) (xs : List (Expr Position)) :
    f.apply (g.chain xs) = (f.apply g).chain xs := by
  induction xs generalizing g with
  | nil => rfl
  | cons x xs ih =>
    have hturned : f.apply (.call g.mark g x) = .call (f.apply g).mark (f.apply g) x := by rw [apply, mark_apply]
    exact (ih _).trans (congrArg (chain · xs) hturned)

theorem apply_of_not_isCall (f : Expr Position) {x : Expr Position} (hx : x.isCall = false) :
    f.apply x = .call f.mark f x := by
  cases x <;> first | rfl | cases hx

end Expr

namespace Read

/-- The tokens spell something that chains of applications on a line are written with. It is a tuple literal or not. -/
inductive SpellsLink : List Lexeme → Expr Position → Bool → Prop
  | atom {ts : List Lexeme} {e : Expr Position} : SpellsAtom True ts e → SpellsLink ts e false
  | unit (pos pos' : Position) : SpellsLink [⟨.openBracket, pos⟩, ⟨.closeBracket, pos'⟩] (.tuple pos []) true
  | tuple (pos : Position) {ts : List Lexeme} {es : List (Expr Position)} : SpellsItems True ts es →
    SpellsLink (⟨.openBracket, pos⟩ :: ts) (.tuple pos es) true

/-- One link of a chain of applications: a variable, a number, a group in parentheses or a tuple. -/
structure Link where
  tokens : List Lexeme
  expr : Expr Position
  isTuple : Bool
  spelled : SpellsLink tokens expr isTuple

namespace Link

/-- How a chain ends that ends with the link. -/
def ending (l : Link) : Ending :=
  if l.isTuple then .tuple true else .atom l.expr.mark

theorem spells (l : Link) : SpellsValue True l.tokens l.expr l.ending := by
  obtain ⟨ts, e, isTuple, h⟩ := l
  cases h with
  | atom hatom => exact .atom hatom
  | unit pos pos' => exact .unit pos pos'
  | tuple pos hitems => exact .tuple pos hitems

theorem spellsAtom {l : Link} (h : l.isTuple = false) : SpellsAtom True l.tokens l.expr := by
  obtain ⟨ts, e, isTuple, hspelled⟩ := l
  cases hspelled with
  | atom hatom => exact hatom
  | unit _ _ => cases h
  | tuple _ _ => cases h

theorem not_isCall (l : Link) : l.expr.isCall = false := by
  obtain ⟨ts, e, isTuple, h⟩ := l
  cases h with
  | atom hatom => cases hatom <;> rfl
  | unit _ _ => rfl
  | tuple _ _ => rfl

/-- Links without a tuple in front of the last one spell their chain. -/
theorem spells_chain (first : Link) (others : List Link) {last : Link} (hlast : (first :: others).getLast? = some last)
    (h : ∀ l ∈ (first :: others).dropLast, l.isTuple = false) :
    SpellsValue True ((first :: others).flatMap tokens) (first.expr.chain (others.map expr)) last.ending := by
  induction others generalizing first with
  | nil =>
    cases hlast
    rw [List.flatMap_singleton]
    exact first.spells
  | cons second others ih =>
    rw [List.getLast?_cons_cons] at hlast
    obtain ⟨hfirst, hothers⟩ := List.forall_mem_cons.1 h
    have hturned : first.expr.chain ((second :: others).map expr) =
        first.expr.apply (second.expr.chain (others.map expr)) := by
      rw [Expr.apply_chain, Expr.apply_of_not_isCall _ second.not_isCall]
      rfl
    rw [List.flatMap_cons, hturned]
    exact .applied (spellsAtom hfirst) (ih second hlast hothers)

/-- A link starts as values do, and if with a name then it is that name. -/
theorem exists_first (l : Link) :
    ∃ t us, l.tokens = t :: us ∧ startsValue t.token = true ∧ ∀ y, t.token = .name y → us = [] := by
  obtain ⟨ts, e, isTuple, h⟩ := l
  cases h with
  | atom hatom =>
    cases hatom with
    | name x pos => exact ⟨_, _, rfl, rfl, fun _ _ => rfl⟩
    | number n pos => exact ⟨_, _, rfl, rfl, nofun⟩
    | group _ _ _ => exact ⟨_, _, rfl, rfl, nofun⟩
  | unit _ _ => exact ⟨_, _, rfl, rfl, nofun⟩
  | tuple _ _ => exact ⟨_, _, rfl, rfl, nofun⟩

theorem head_ne (ls : List Link) {token : Token} (h : startsValue token = false) :
    ∀ t ∈ (ls.flatMap tokens).head?, t.token ≠ token := by
  rcases ls with _ | ⟨l, ls⟩
  · nofun
  · obtain ⟨t, us, htokens, hstarts, -⟩ := l.exists_first
    rw [List.flatMap_cons, htokens]
    rintro _ ⟨⟩
    exact ne_of_startsValue hstarts h

/-- A chain with a tuple in front of its last link has a first one. -/
theorem exists_first_tuple (first : Link) (others : List Link)
    (h : ¬∀ l ∈ (first :: others).dropLast, l.isTuple = false) :
    ∃ before tuple next after, first :: others = before ++ tuple :: next :: after ∧
      (∀ l ∈ before, l.isTuple = false) ∧ tuple.isTuple = true := by
  induction others generalizing first with
  | nil => exact absurd nofun h
  | cons second others ih =>
    cases hfirst : first.isTuple with
    | true => exact ⟨[], first, second, others, rfl, nofun, hfirst⟩
    | false =>
      have hothers : ¬∀ l ∈ (second :: others).dropLast, l.isTuple = false := fun hothers =>
        h (List.forall_mem_cons.2 ⟨hfirst, hothers⟩)
      obtain ⟨before, tuple, next, after, hsplit, hbefore, htuple⟩ := ih second hothers
      exact ⟨first :: before, tuple, next, after, congrArg (first :: ·) hsplit,
        List.forall_mem_cons.2 ⟨hfirst, hbefore⟩, htuple⟩

end Link

/-! ## The statement and what follows -/

section

variable {last : Position} {ts us rest : List Lexeme}

/-- Behind an assignment that was read the others are read. -/
theorem assignments_of_outcome {t : Lexeme} {a : Assignment Position}
    (h : outcome (assignment last (t :: ts)) = some (a, rest)) :
    assignments last (t :: ts) = (assignments last rest).map (a :: ·) := by
  rw [assignments]
  cases hread : assignment last (t :: ts) with
  | error e =>
    rw [hread] at h
    cases h
  | ok p =>
    rw [hread] at h
    cases h
    cases hmore : assignments last p.rest <;> simp [bind, Except.bind, pure, Except.pure, Except.map, hmore]

/-- A value on the line of its name is assigned without clauses, if neither a semicolon nor a block follows. -/
theorem assignments_of_spells (last : Position) (x : String) {pos : Position} (pos' : Position) {e : Expr Position}
    {ending : Ending} (h : SpellsValue True ts e ending) (hline : OnLine pos.indent ts)
    (hrest : Ends pos.indent pos.indent ending rest)
    (hplain : ∀ t ∈ rest.head?, t.token ≠ .semicolon ∧ t.token ≠ .whereMark) :
    assignments last (⟨.name x, pos⟩ :: ⟨.equals, pos'⟩ :: (ts ++ rest)) =
      (assignments last rest).map (.mk pos x e [] :: ·) := by
  refine assignments_of_outcome ?_
  rw [outcome_assignment, outcome_value_of_spells h hline hrest]
  rcases rest with _ | ⟨⟨t, pos⟩, rest⟩
  · rfl
  · obtain ⟨hsemicolon, hwhere⟩ := hplain _ rfl
    cases t <;> first | rfl | exact absurd rfl hsemicolon | exact absurd rfl hwhere

/-- The error where a statement is wanted: at the next token, or right behind it if it is a name. -/
def Unstated (t : Lexeme) (us : List Lexeme) (e : ReadError) : Prop :=
  (∀ y, t.token ≠ .name y) ∧ e = ⟨t.pos, .name, some t.token⟩ ∨
    (∃ y, t.token = .name y) ∧ e = ⟨(us.head?.getD t).pos, .equals, us.head?.map Lexeme.token⟩

theorem assignments_fail {t : Lexeme} (hlast : us = [] → last = t.pos)
    (hus : ∀ y, t.token = .name y → ∀ u ∈ us.head?, u.token ≠ .equals) :
    ∃ e, assignments last (t :: us) = .error e ∧ Unstated t us e := by
  rw [assignments, assignment.eq_def]
  obtain ⟨t, pos⟩ := t
  cases t with
  | name y =>
    rcases us with _ | ⟨⟨u, pos'⟩, us⟩
    · cases hlast rfl
      exact ⟨_, rfl, .inr ⟨⟨y, rfl⟩, rfl⟩⟩
    · cases u with
      | equals => exact absurd rfl (hus y rfl _ rfl)
      | _ => exact ⟨_, rfl, .inr ⟨⟨y, rfl⟩, rfl⟩⟩
  | _ => exact ⟨_, rfl, .inl ⟨fun _ => Token.noConfusion, rfl⟩⟩

end

/-- Behind the first token of a line its other tokens stand on the line. -/
theorem onLine_of_line {source : String} {t : Lexeme} {ts : List Lexeme} (h : Scan.tokens source = .ok (t :: ts))
    (hline : ∀ u ∈ ts, u.pos.line = t.pos.line) : OnLine t.pos.indent ts := by
  intro u hu
  refine ⟨Bool.eq_false_iff.2 fun hopens => ?_, Scan.indent_eq_of_line_eq h (.tail _ hu) (.head _) (hline u hu)⟩
  obtain ⟨xs, ys, rfl⟩ := List.append_of_mem hu
  have hfirst := Scan.opensLine_iff h (show t :: (xs ++ u :: ys) = (t :: xs) ++ u :: ys from rfl)
  exact hfirst.1 hopens t (.head _) (hline u hu).symm

theorem program_chain (x : String) {pos : Position} (pos' : Position) {first : Link} {others : List Link}
    (hline : OnLine pos.indent ((first :: others).flatMap Link.tokens))
    (h : ∀ l ∈ (first :: others).dropLast, l.isTuple = false) :
    program (⟨.name x, pos⟩ :: ⟨.equals, pos'⟩ :: (first :: others).flatMap Link.tokens) =
      .ok [.mk pos x (first.expr.chain (others.map Link.expr)) []] := by
  obtain ⟨last, hlast⟩ := Option.isSome_iff_exists.1 (List.getLast?_isSome.2 (List.cons_ne_nil first others))
  have hspells := Link.spells_chain first others hlast h
  have hends : Ends pos.indent pos.indent last.ending [] := ⟨.inr rfl, nofun⟩
  rw [program, ← List.append_nil ((first :: others).flatMap Link.tokens),
    assignments_of_spells _ x pos' hspells hline hends nofun, assignments]
  rfl

/-- The links up to the first tuple spell a value that takes no argument. -/
theorem Link.exists_spells_tuple {before : List Link} {tuple : Link} (hbefore : ∀ l ∈ before, l.isTuple = false)
    (htuple : tuple.isTuple = true) :
    ∃ e, SpellsValue True ((before ++ [tuple]).flatMap tokens) e (.tuple true) := by
  obtain ⟨first, others, hchain⟩ : ∃ first others, before ++ [tuple] = first :: others :=
    List.exists_cons_of_ne_nil (by simp)
  have hlast : (first :: others).getLast? = some tuple := by rw [← hchain, List.getLast?_concat]
  have hdrop : ∀ l ∈ (first :: others).dropLast, l.isTuple = false := by rwa [← hchain, List.dropLast_concat]
  have hspells := spells_chain first others hlast hdrop
  rw [← hchain, ending, if_pos htuple] at hspells
  exact ⟨_, hspells⟩

/-- Behind the first tuple of a chain a statement is wanted, in front of the next link. -/
theorem program_chain_fails (x : String) {pos : Position} (pos' : Position) {before after : List Link}
    {tuple next : Link} (hline : OnLine pos.indent ((before ++ tuple :: next :: after).flatMap Link.tokens))
    (hbefore : ∀ l ∈ before, l.isTuple = false) (htuple : tuple.isTuple = true) :
    ∃ t us e, (next :: after).flatMap Link.tokens = t :: us ∧
      program (⟨.name x, pos⟩ :: ⟨.equals, pos'⟩ :: (before ++ tuple :: next :: after).flatMap Link.tokens) = .error e ∧
      Unstated t us e := by
  have hsplit : (before ++ tuple :: next :: after).flatMap Link.tokens =
      (before ++ [tuple]).flatMap Link.tokens ++ (next :: after).flatMap Link.tokens := by
    rw [← List.flatMap_append, List.append_assoc, List.singleton_append]
  obtain ⟨e, hspells⟩ := Link.exists_spells_tuple hbefore htuple
  have hread := fun last => assignments_of_spells last x pos' hspells (hsplit ▸ hline).append.1
    ⟨.inl rfl, Link.head_ne (next :: after) rfl⟩ fun u hu => ⟨Link.head_ne _ rfl u hu, Link.head_ne _ rfl u hu⟩
  obtain ⟨t, us, htokens, -, hname⟩ := next.exists_first
  have hrest : (next :: after).flatMap Link.tokens = t :: (us ++ after.flatMap Link.tokens) := by
    rw [List.flatMap_cons, htokens, List.cons_append]
  have hequals : ∀ y, t.token = .name y → ∀ u ∈ (us ++ after.flatMap Link.tokens).head?, u.token ≠ .equals := by
    intro y hy
    rw [hname y hy, List.nil_append]
    exact Link.head_ne after rfl
  rw [program, hsplit, hread, hrest]
  have hlast : us ++ after.flatMap Link.tokens = [] →
      ((⟨.name x, pos⟩ :: ⟨.equals, pos'⟩ :: ((before ++ [tuple]).flatMap Link.tokens ++
        t :: (us ++ after.flatMap Link.tokens))).getLast?.map Lexeme.pos).getD .generated = t.pos := by
    intro hend
    rw [hend, ← List.cons_append, ← List.cons_append, List.getLast?_concat]
    rfl
  obtain ⟨e, hfails, he⟩ := assignments_fail hlast hequals
  exact ⟨t, _, e, rfl, by rw [hfails]; rfl, he⟩

end Read

namespace Program

open Read

/-- A chain of applications on the line of its name is a program if and only if no link in front of the last one is a
tuple. Then its value applies the first link to all others, nested to the left. Otherwise reading fails with what
follows the first tuple: at the next token, where a name is wanted, or if that is a name right behind it, where an equals
sign is. -/
theorem parse_chain {source x : String} {pos pos' : Position} {first : Link} {others : List Link}
    (hscan : Scan.tokens source =
      .ok (⟨.name x, pos⟩ :: ⟨.equals, pos'⟩ :: (first :: others).flatMap Link.tokens))
    (hline : ∀ t ∈ (⟨.equals, pos'⟩ :: (first :: others).flatMap Link.tokens : List Lexeme), t.pos.line = pos.line) :
    ((∃ p, parse source = .ok p) ↔ ∀ l ∈ (first :: others).dropLast, l.isTuple = false) ∧
      ((∀ l ∈ (first :: others).dropLast, l.isTuple = false) → parse source =
        .ok (.ofAssignments [.mk pos x (first.expr.chain (others.map Link.expr)) []])) ∧
      ∀ before tuple next after, first :: others = before ++ tuple :: next :: after →
        (∀ l ∈ before, l.isTuple = false) → tuple.isTuple = true →
        ∃ t us e, (next :: after).flatMap Link.tokens = t :: us ∧ parse source = .error (.read e) ∧
          ((∀ y, t.token ≠ .name y) ∧ e.expected.code = "FNT-P001" ∧ e.pos = t.pos ∧ e.found = some t.token ∨
            (∃ y, t.token = .name y) ∧ e.expected.code = "FNT-P002" ∧ e.pos = (us.head?.getD t).pos ∧
              e.found = us.head?.map Lexeme.token) := by
  have honline := (onLine_of_line hscan hline).tail
  have hbroken : ∀ before tuple next after, first :: others = before ++ tuple :: next :: after →
      (∀ l ∈ before, l.isTuple = false) → tuple.isTuple = true →
      ∃ t us e, (next :: after).flatMap Link.tokens = t :: us ∧ parse source = .error (.read e) ∧ Unstated t us e := by
    intro before tuple next after hsplit hbefore htuple
    rw [hsplit] at honline hscan
    obtain ⟨t, us, e, htokens, hfails, he⟩ := program_chain_fails x pos' honline hbefore htuple
    refine ⟨t, us, e, htokens, ?_, he⟩
    simp only [parse_eq, hscan, hfails]
  have hparse : (∀ l ∈ (first :: others).dropLast, l.isTuple = false) →
      parse source = .ok (.ofAssignments [.mk pos x (first.expr.chain (others.map Link.expr)) []]) := by
    intro h
    simp only [parse_eq, hscan, program_chain x pos' honline h]
  refine ⟨⟨?_, fun h => ⟨_, hparse h⟩⟩, hparse, ?_⟩
  · rintro ⟨p, hp⟩
    by_contra hno
    obtain ⟨before, tuple, next, after, hsplit, hbefore, htuple⟩ := Link.exists_first_tuple first others hno
    obtain ⟨t, us, e, -, hfails, -⟩ := hbroken before tuple next after hsplit hbefore htuple
    cases hp.symm.trans hfails
  · intro before tuple next after hsplit hbefore htuple
    obtain ⟨t, us, e, htokens, hfails, he⟩ := hbroken before tuple next after hsplit hbefore htuple
    refine ⟨t, us, e, htokens, hfails, ?_⟩
    rcases he with ⟨hname, rfl⟩ | ⟨hname, rfl⟩
    · exact .inl ⟨hname, rfl, rfl, rfl⟩
    · exact .inr ⟨hname, rfl, rfl, rfl⟩

/-- A place behind the first token of the first line. -/
def firstLine (column : Nat) : Position :=
  ⟨1, column, 0, false⟩

/-- The variable in `x = f …`. -/
def callee : Link :=
  ⟨_, _, _, .atom (.name "f" (firstLine 5))⟩

/-- The links of `x = f (y => [y] 2) [1, k]` behind `f`. -/
def arguments : List Link :=
  [⟨_, _, _, .atom (.group (firstLine 7) (firstLine 18) (.called "y" (firstLine 8) (firstLine 10)
      (.tuple (firstLine 13) (.one (firstLine 15) (.atom (.name "y" (firstLine 14)))))
      (fun _ => rfl) (.atom (.number 2 (firstLine 17)))))⟩,
    ⟨_, _, _, .tuple (firstLine 20) (.more (firstLine 22) (.atom (.number 1 (firstLine 21)))
      (.one (firstLine 25) (.atom (.name "k" (firstLine 24)))))⟩]

/-- The links of `x = f [] (g 1)` behind `f`. -/
def brokenArguments : List Link :=
  [⟨_, _, _, .unit (firstLine 7) (firstLine 8)⟩,
    ⟨_, _, _, .atom (.group (firstLine 10) (firstLine 14)
      (.applied (.name "g" (firstLine 11)) (.atom (.number 1 (firstLine 13)))))⟩]

theorem parse_chain_arguments :
    parse "x = f (y => [y] 2) [1, k]" = .ok (.ofAssignments [.mk ⟨1, 1, 0, true⟩ "x"
      (.call (firstLine 5)
        (.call (firstLine 5) (.var (firstLine 5) "f")
          (.group (firstLine 7)
            (.call (firstLine 8) (.function (firstLine 8) "y" (.tuple (firstLine 13) [.var (firstLine 14) "y"]))
              (.number (firstLine 17) 2))))
        (.tuple (firstLine 20) [.number (firstLine 21) 1, .var (firstLine 24) "k"])) []]) ∧
    ∃ e, parse "x = f [] (g 1)" = .error (.read e) ∧ e.expected.code = "FNT-P001" ∧ e.pos = firstLine 10 ∧
      e.found = some .openParen := by
  have hscan : Scan.tokens "x = f (y => [y] 2) [1, k]" = .ok (⟨.name "x", ⟨1, 1, 0, true⟩⟩ ::
      ⟨.equals, firstLine 3⟩ :: (callee :: arguments).flatMap Link.tokens) := by
    decide +kernel
  have hbroken : Scan.tokens "x = f [] (g 1)" = .ok (⟨.name "x", ⟨1, 1, 0, true⟩⟩ ::
      ⟨.equals, firstLine 3⟩ :: (callee :: brokenArguments).flatMap Link.tokens) := by
    decide +kernel
  refine ⟨(parse_chain hscan (by decide)).2.1 (by decide), ?_⟩
  obtain ⟨t, us, e, htokens, hfails, he⟩ :=
    (parse_chain hbroken (by decide)).2.2 [callee] _ _ [] rfl (by decide) rfl
  cases htokens
  rcases he with ⟨-, he⟩ | ⟨⟨y, hy⟩, -⟩
  · exact ⟨e, hfails, he⟩
  · cases hy

end Program

end Lamcode
