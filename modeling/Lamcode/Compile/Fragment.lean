import Lamcode.Emit.Lower

/-!
# Lamcode.Compile.Fragment — the code of expressions and assignments

Every expression leaves its value in frame slot 0 and finds the record of its scope in slot -2. It may
use slot 0 and every slot above it. A call frame starts three words above its caller's: its slot 0 holds
the new scope record and slot 1 the return address, and the function leaves its result in slot 0.

Function bodies are not run where they are written: a fragment keeps them apart, to be placed once
behind the static records.
-/

namespace Lamcode

/-- Code for one node: what runs in place, and the function bodies in it. -/
structure Fragment where
  inPlace : List Item
  hoisted : List Item

namespace Fragment

/-- Code without function bodies. -/
def ofItems (items : List Item) : Fragment :=
  ⟨items, []⟩

/-- One fragment behind the other. -/
def append (a b : Fragment) : Fragment :=
  ⟨a.inPlace ++ b.inPlace, a.hoisted ++ b.hoisted⟩

/-- Writes several fragments one behind the other. -/
def concat : List (Emit Fragment) → Emit Fragment
  | [] => pure (ofItems [])
  | e :: rest => do
    let code ← e
    let more ← concat rest
    return code.append more

/-- Writes code without function bodies. -/
def code (pieces : List (Emit (List Item))) : Emit Fragment := do
  return ofItems (← Emit.concat pieces)

end Fragment

open Emit Operand

namespace Expr

mutual
/-- Writes the code of an expression. -/
def emit : Expr Site → Emit Fragment
  | .number site value => within site (Fragment.code [copy (.int value) (rel 0)])
  | .var site name => within site (Fragment.code [copy (.named name) (rel 0)])
  | .group site inner => within site inner.emit
  | .tuple site items => within site do
    let length : Int := items.length
    let reserve := if items.isEmpty then [] else [addTo (.int length) (.wordAt .ramPointer)]
    Fragment.concat [
      Fragment.code ([copy (rel (-2)) (rel 0), moveStack 2, copy (.wordAt .ramPointer) (rel (-1)),
        writeToRam (.int length)] ++ reserve),
      emitItems 0 items,
      Fragment.code [moveStack (-2), copy (rel 1) (rel 0)]]
  | .call site f x => within site do
    let resume ← fresh "resume"
    Fragment.concat [
      Fragment.code [copy (rel (-2)) (rel 1), moveStack 3],
      f.emit,
      Fragment.code [copy (rel 0) (rel (-3))],
      x.emit,
      Fragment.code [copy (rel 0) (rel (-1)),
        copy (.wordAt .ramPointer) (rel 0),
        writeToRam (Operand.offset (.int Heap.closureScope) (rel (-3))).toPointer,
        writeToRam (rel (-1)),
        copy (.addressOf resume) (rel 1),
        jump (Operand.offset (.int Heap.closureCode) (rel (-3))).toPointer,
        placeLabel resume, moveStack (-3), copy (rel 3) (rel 0)]]
  | .function site _ body => within site do
    let entry ← fresh "function"
    let inner ← body.emit
    let closure ← Emit.concat [copy (.wordAt .ramPointer) (rel 0), writeToRam (.addressOf entry),
      writeToRam (rel (-2))]
    let enter ← moveStack 2
    let leave ← Emit.concat [moveStack (-2), copy (rel 2) (rel 0), jump (rel 1)]
    return ⟨closure, .hanging entry :: enter ++ inner.inPlace ++ leave ++ inner.hoisted⟩

/-- Writes the code that evaluates the elements of a tuple from `index` on and stores each one. The
address of the tuple is in slot -1. -/
def emitItems (index : Nat) : List (Expr Site) → Emit Fragment
  | [] => pure (.ofItems [])
  | e :: rest =>
    Fragment.concat [
      e.emit,
      Fragment.code [copy (rel 0) (.offset (.spill (rel (-1))) (.int (Heap.tupleHeader + index)))],
      emitItems (index + 1) rest]
end

end Expr

namespace Assignment

mutual
/-- Writes the code of an assignment, which leaves the value in slot 0: it allocates the record of
the assignment's scope, evaluates the clauses and then the value. -/
def emit : Assignment Site Header → Emit Fragment
  | .mk head _ value clauses => do
    let ready ← fresh "scope_ready"
    within head.toSite (Fragment.concat [
      Fragment.code [copy (.int clauses.length) (rel 0), copy (rel (-2)) (rel 1),
        copy (.addressOf ready) (rel 2), jump (.addressOf .allocateScope), placeLabel ready, moveStack 2],
      emitAll head.own clauses,
      value.emit,
      Fragment.code [moveStack (-2), copy (rel 2) (rel 0)]])

/-- Writes the code of assignments, each one followed by the code that stores its value under its name in
the scope `s`. -/
def emitAll (s : Nat) : List (Assignment Site Header) → Emit Fragment
  | [] => pure (.ofItems [])
  | a :: rest =>
    Fragment.concat [
      a.emit,
      within ⟨s, a.mark.pos⟩ (Fragment.code [copy (rel 0) (.named a.name)]),
      emitAll s rest]
end

end Assignment

end Lamcode
