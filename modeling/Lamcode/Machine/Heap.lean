import Lamcode.Machine.Memory

/-!
# Lamcode.Machine.Heap — the records that compiled programs keep in memory

Three shapes, each a run of words named by the address of its first one:

* a scope record `[parent, slot 0, slot 1, …]`, with parent 0 for the outermost one;
* a closure `[code address, captured scope record]`;
* a tuple `[length, element 0, element 1, …]`.
-/

namespace Lamcode.Heap

/-- The words in front of the first slot of a scope record. -/
def recordHeader : Nat := 1

/-- The word of a closure that holds the address of its code. -/
def closureCode : Nat := 0

/-- The word of a closure that holds the captured scope record. -/
def closureScope : Nat := 1

/-- The words in front of the first element of a tuple. -/
def tupleHeader : Nat := 1

/-- A slot of the scope record at `record`. -/
def slot (m : Memory) (record index : Nat) : Int :=
  m.get (record + recordHeader + index)

/-- The record that encloses the one at `record`; none encloses the outermost one. -/
def parent (m : Memory) (record : Nat) : Except Fault (Option Nat) :=
  let word := m.get record
  if word = 0 then .ok none else (Memory.address word).map some

/-- The elements of the tuple at `address`. -/
def tupleElements (m : Memory) (address : Nat) : Except Fault (List Int) :=
  (Memory.address (m.get address)).map fun length =>
    (List.range length).map fun i => m.get (address + tupleHeader + i)

/-- The scope records from the one at `record` outwards, at most `limit` of them. What encloses the
last one is not looked at. -/
def chain (m : Memory) : (limit : Nat) → (record : Nat) → Except Fault (List Nat)
  | 0, _ => .ok []
  | 1, record => .ok [record]
  | limit + 2, record =>
    match parent m record with
    | .error e => .error e
    | .ok none => .ok [record]
    | .ok (some outer) => (chain m (limit + 1) outer).map (record :: ·)

end Lamcode.Heap
