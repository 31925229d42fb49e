import Lamcode.Proofs.Scope.Threading
import Lamcode.Proofs.Tree.Reading

/-!
# Lamcode.Proofs.Tree.Roundtrip — the printed form is source

Printing a list of assignments and parsing the text gives the assignments back, up to the groups, which leave no trace
in the text, and the marks of the nodes. There is one exception: a call whose function is a tuple is printed as
`([..] x)`, which is no source, because a tuple takes no argument. `Program.parse_printAll` states both: which printed
forms are parsed, and what they are parsed to.

The way from the text to the tokens is in `Lamcode.Proofs.Tree.Layout`, and that from the tokens to the trees in
`Lamcode.Proofs.Tree.Reading`. What is left for this module is that scopes only add to the marks, and that the names a
program refers to can be told from its trees without groups and marks.
-/

namespace Lamcode

variable {α β : Type}

namespace Expr

mutual

theorem bare_inScope : ∀ (s : Nat) (e : Expr Position) (t : ScopeTable), (e.inScope s t).1.bare = e.bare
  | _, .number _ _, _ => rfl
  | _, .var _ _, _ => rfl
  | s, .tuple _ items, t => by
    simp only [inScope, bare, bareOf_inScopeItems]
  | s, .call _ f x, t => by
    simp only [inScope, bare, bare_inScope]
  | s, .function _ param body, t => by
    simp only [inScope, bare, bare_inScope]
  | s, .group _ inner, t => by
    simp only [inScope, bare, bare_inScope]

theorem bareOf_inScopeItems : ∀ (s : Nat) (items : List (Expr Position)) (t : ScopeTable),
    bareOf (inScopeItems s items t).1 = bareOf items
  | _, [], _ => rfl
  | s, e :: rest, t => by
    simp only [inScopeItems, bareOf, bare_inScope, bareOf_inScopeItems]

end

mutual

theorem usedNames_bare : ∀ e : Expr α, e.bare.usedNames = e.usedNames
  | .number _ _ => rfl
  | .var _ _ => rfl
  | .tuple _ items => by
    rw [bare, usedNames, usedNames, usedNamesOf_bareOf items]
  | .call _ f x => by
    rw [bare, usedNames, usedNames, usedNames_bare f, usedNames_bare x]
  | .function _ _ body => by
    rw [bare, usedNames, usedNames, usedNames_bare body]
  | .group _ inner => by
    rw [bare, usedNames, usedNames_bare inner]

theorem usedNamesOf_bareOf : ∀ items : List (Expr α), usedNamesOf (bareOf items) = usedNamesOf items
  | [] => rfl
  | e :: rest => by
    rw [bareOf, usedNamesOf, usedNamesOf, usedNames_bare e, usedNamesOf_bareOf rest]

end

end Expr

namespace Assignment

mutual

theorem bare_inScope : ∀ (s : Nat) (a : Assignment Position) (t : ScopeTable), (a.inScope s t).1.bare = a.bare
  | s, .mk pos name value clauses, t => by
    simp only [inScope, bare, Expr.bare_inScope, bareOf_inScopeAll]

theorem bareOf_inScopeAll : ∀ (s : Nat) (as : List (Assignment Position)) (t : ScopeTable),
    bareOf (inScopeAll s as t).1 = bareOf as
  | _, [], _ => rfl
  | s, a :: rest, t => by
    simp only [inScopeAll, bareOf, bare_inScope, bareOf_inScopeAll]

end

mutual

theorem usedNames_bare : ∀ a : Assignment α β, a.bare.usedNames = a.usedNames
  | .mk _ _ value clauses => by
    rw [bare, usedNames, usedNames, value.usedNames_bare, usedNamesOf_bareOf clauses]

theorem usedNamesOf_bareOf : ∀ as : List (Assignment α β), usedNamesOf (bareOf as) = usedNamesOf as
  | [] => rfl
  | a :: rest => by
    rw [bareOf, usedNamesOf, usedNamesOf, usedNames_bare a, usedNamesOf_bareOf rest]

end

/-- Printed assignments are scanned and read back. -/
theorem exists_tokens_printAll (as : List (Assignment α β)) (h : ∀ x ∈ identifiersOf as, Scan.isIdentifier x = true) :
    ∃ ls, Scan.tokens (printAll 0 as) = .ok ls ∧
      ((∃ as', Read.program ls = .ok as') ↔ callNoTuple as = true) ∧
      ∀ as', Read.program ls = .ok as' → bareOf as' = bareOf as := by
  obtain ⟨ls, htokens, hrows⟩ := Scan.exists_tokens_of_laidOut (laidOut_printAll 0 as h)
  exact ⟨ls, htokens, (reads_assignments _ hrows).of_all⟩

end Assignment

namespace Program

theorem bareOf_ofAssignments (as : List (Assignment Position)) :
    Assignment.bareOf (ofAssignments as).assignments = Assignment.bareOf as :=
  Assignment.bareOf_inScopeAll ScopeTable.globals as .initial

/-- The printed form of assignments is parsed if and only if no call in them calls a tuple, and then it is parsed to a
program with the same trees but for groups and marks, which refers to the same names. -/
theorem parse_printAll (as : List (Assignment α β))
    (h : ∀ x ∈ Assignment.identifiersOf as, Scan.isIdentifier x = true) :
    ((∃ p, parse (Assignment.printAll 0 as) = .ok p) ↔ Assignment.callNoTuple as = true) ∧
      ∀ p, parse (Assignment.printAll 0 as) = .ok p →
        Assignment.bareOf p.assignments = Assignment.bareOf as ∧
          p.referencedNames = sortedNames (Assignment.usedNamesOf as) := by
  obtain ⟨ls, htokens, hiff, hbare⟩ := Assignment.exists_tokens_printAll as h
  rw [parse_eq, htokens]
  dsimp only
  rw [← hiff]
  cases hread : Read.program ls with
  | error e => exact ⟨⟨nofun, nofun⟩, nofun⟩
  | ok as' =>
    refine ⟨⟨fun _ => ⟨as', rfl⟩, fun _ => ⟨_, rfl⟩⟩, ?_⟩
    rintro p ⟨⟩
    have htrees : Assignment.bareOf (ofAssignments as').assignments = Assignment.bareOf as := by
      rw [bareOf_ofAssignments, hbare as' hread]
    refine ⟨htrees, congrArg sortedNames ?_⟩
    rw [usedNames, ← Assignment.usedNamesOf_bareOf, htrees, Assignment.usedNamesOf_bareOf]

/-- Clauses inside a clause, groups, a function in a tuple and a negative number. -/
def layered : List (Assignment Unit) :=
  [.mk () "f" (.group () (.call () (.group () (.call () (.var () "g") (.number () (-3)))) (.tuple () [])))
    [.mk () "g" (.function () "x" (.tuple () [.var () "x", .function () "y" (.var () "h"), .number () 0]))
      [.mk () "h" (.var () "k") [.mk () "k" (.number () 1) []], .mk () "l_2" (.tuple () [.var () "h"]) []],
     .mk () "m" (.group () (.var () "g")) []],
   .mk () "Main" (.call () (.var () "f") (.call () (.var () "f") (.number () 12))) []]

/-- A tuple in two groups is called, inside a clause. -/
def tupleCall : List (Assignment Unit) :=
  [.mk () "f" (.number () 0)
    [.mk () "g" (.call () (.group () (.group () (.tuple () [.number () 1]))) (.var () "f")) []]]

theorem parse_layered :
    (∃ p, parse (Assignment.printAll 0 layered) = .ok p ∧
      Assignment.bareOf p.assignments = Assignment.bareOf layered ∧
      p.referencedNames = sortedNames ["g", "x", "h", "k", "h", "g", "f", "f"]) ∧
    ¬∃ p, parse (Assignment.printAll 0 tupleCall) = .ok p := by
  have hlayered := parse_printAll layered (by decide)
  have htuple := parse_printAll tupleCall (by decide)
  obtain ⟨p, hp⟩ := hlayered.1.2 (by decide)
  refine ⟨⟨p, hp, hlayered.2 p hp⟩, ?_⟩
  rw [htuple.1]
  decide

end Program

end Lamcode
