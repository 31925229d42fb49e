import Lamcode.Builtin.Catalog
import Lamcode.Emit.Lower

/-!
# Lamcode.Builtin.Code — the code of the built-ins

A built-in is a closure over the record of the built-in scope, with one level of code per parameter.
A level runs in the frame of its call and does not move the stack: slot 0 holds its scope record, slot
1 the return address, and the slots from 2 on are free. It leaves its result in slot 0. Every level
but the last one returns a closure over its own record.
-/

namespace Lamcode.Builtin

open Emit Operand

/-- A variable, seen from the code of a level. -/
def slotOf (name : String) : Operand :=
  .var name 0

/-- The word of a tuple that is `index` words behind its first one. -/
def element (tuple index : Operand) : Operand :=
  (Operand.offset (.deref tuple) index).toPointer

/-- The two relations of integers that the machine can test. -/
inductive Test where
  | equal
  | less
  deriving DecidableEq

/-- Leaves `true` in slot 0 if the test of the two parameters comes out as `wanted`, else `false`. -/
def compare (test : Test) (wanted : Bool) : Emit (List Item) := do
  let flag ← fresh "flag"
  let yes ← fresh "yes"
  let done ← fresh "done"
  let decision :=
    match test with
    | .equal => equals (slotOf "a") (slotOf "b") (.wordAt flag)
    | .less => lessThan (slotOf "a") (slotOf "b") (.wordAt flag)
  let branch :=
    if wanted then jumpIfTrue (.patched .immediate flag) (.addressOf yes)
    else jumpIfFalse (.patched .immediate flag) (.addressOf yes)
  concat [decision, branch, copy (slotOf "false") (rel 0), jump (.addressOf done), placeLabel yes,
    copy (slotOf "true") (rel 0), placeLabel done]

/-- Divides the parameter `a` by the parameter `b` by repeated subtraction: slot 2 holds the
remainder, slot 3 the negated divisor, slot 4 the quotient and slot 5 the divisor. Leaves the content
of slot `result` in slot 0. -/
def longDivision (result : Int) : Emit (List Item) := do
  let head ← fresh "div_loop"
  let exit ← fresh "div_exit"
  let flag ← fresh "flag"
  concat [copy (slotOf "a") (rel 2), Emit.mult (slotOf "b") (.int (-1)) (rel 3), copy (.int 0) (rel 4),
    copy (slotOf "b") (rel 5), placeLabel head, lessThan (rel 2) (rel 5) (.wordAt flag),
    jumpIfTrue (.patched .immediate flag) (.addressOf exit), Emit.add (rel 2) (rel 3) (rel 2),
    addTo (.int 1) (rel 4), jump (.addressOf head), placeLabel exit, copy (rel result) (rel 0)]

/-- The code of the innermost level, where all parameters are in scope. -/
def body : Builtin → Emit (List Item)
  | .unit => pure []
  | .print => concat [write (slotOf "x"), copy (slotOf "_") (rel 0)]
  | .succ => Emit.add (slotOf "n") (.int 1) (rel 0)
  | .add => Emit.add (slotOf "a") (slotOf "b") (rel 0)
  | .mult => Emit.mult (slotOf "a") (slotOf "b") (rel 0)
  | .truth => copy (slotOf "first") (rel 0)
  | .falsity => copy (slotOf "second") (rel 0)
  | .sequence => copy (slotOf "do") (rel 0)
  | .eq => compare .equal true
  | .neq => compare .equal false
  | .lt => compare .less true
  | .sub =>
    concat [Emit.mult (slotOf "b") (.int (-1)) (rel 2), Emit.add (slotOf "a") (rel 2) (rel 0)]
  | .get => copy (element (slotOf "tup") (.offset (.int 1) (slotOf "pos"))) (rel 0)
  | .fst => copy (element (slotOf "t") (.int 1)) (rel 0)
  | .snd => copy (element (slotOf "t") (.int 2)) (rel 0)
  | .mod => longDivision 2
  | .div => longDivision 4
  | .input => readTo (rel 0)

/-- The code of the levels for `param` and the parameters behind it. The label `entry` stands for the
first word, and the scope around the level's own one is `outer`. -/
def levels (inner : Emit (List Item)) (outer : Nat) (entry : Label) (param : String) :
    List String → Emit (List Item)
  | [] => do
    let scope ← openScope outer
    bindName scope param
    concat [placeLabel entry, within ⟨scope, .generated⟩ inner, jump (rel 1)]
  | next :: rest => do
    let scope ← openScope outer
    bindName scope param
    let below ← fresh param
    concat [placeLabel entry, copy (.wordAt .ramPointer) (rel 2), writeToRam (.addressOf below),
      writeToRam (rel 0), copy (rel 2) (rel 0), jump (rel 1), levels inner scope below next rest]

/-- The words of a built-in; the label `location` stands for its value. -/
def code (b : Builtin) (location : Label) : Emit (List Item) :=
  match b.params with
  | [] => pure [.labeled (.num 0) location]
  | param :: rest => do
    let entry ← fresh b.name
    let levels ← levels b.body ScopeTable.builtins entry param rest
    return .labeled (.addr entry) location :: .word (.addr .builtinScope) :: levels

end Lamcode.Builtin
