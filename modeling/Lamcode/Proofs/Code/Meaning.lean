import Lamcode.Proofs.Emit.Lowering
import Lamcode.Proofs.Link.Blocks
import Lamcode.Proofs.Machine.Reach
import Lamcode.Proofs.Machine.Transfer

/-!
# Lamcode.Proofs.Code.Meaning — what operands and instructions mean on a machine

An operand means a mode and a number (`Meaning`), and what that is follows from the operand's constructors and the
machine as it stands, without any code (`Operand.meaning`). Where an address has to be read that is none, there is a
fault instead. `Operand.words` lists the words of memory that the meaning is read from.

A `Request` is an instruction before its operands are lowered. Its action (`Request.action`) is that of the
operation on what its operands mean.
-/

namespace Lamcode

/-- A mode and a number: what an operand word says to the machine. -/
structure Meaning where
  mode : Mode
  raw : Int
  deriving DecidableEq

namespace Meaning

/-- The number of the word that is meant; an immediate operand means none. -/
def place? (base : Int) (x : Meaning) : Option Int :=
  match x.mode with
  | .position => some x.raw
  | .immediate => none
  | .relative => some (base + x.raw)

/-- The value on a machine: the number itself, or the content of the word that is meant. -/
def value (m : Machine) (x : Meaning) : Except Fault Int :=
  match x.place? m.base with
  | none => .ok x.raw
  | some a => (Memory.address a).map m.memory.get

/-- The address that the instruction at `here` stores to. -/
def target (m : Machine) (here : Nat) (x : Meaning) : Except Fault Nat :=
  match x.place? m.base with
  | none => .error (.immediateWrite here)
  | some a => Memory.address a

/-- The words that the value is read from. -/
def words (m : Machine) (x : Meaning) : List Nat :=
  match x.place? m.base with
  | none => []
  | some a => (Memory.address a).toOption.toList

/-- The value is the same on machines that agree on the base and the words that are read. -/
theorem value_congr {m m' : Machine} {x : Meaning} (hbase : m'.base = m.base)
    (h : ∀ a ∈ x.words m, m'.memory.get a = m.memory.get a) : x.value m' = x.value m := by
  unfold value
  unfold words at h
  rw [hbase]
  cases hplace : x.place? m.base with
  | none => rfl
  | some a =>
    cases ha : Memory.address a with
    | error e => simp only [ha, Except.map]
    | ok b =>
      simp only [hplace, ha] at h
      simp only [ha, Except.map, h b (by simp [Except.toOption])]

theorem value_immediate (m : Machine) (raw : Int) : value m ⟨.immediate, raw⟩ = .ok raw := rfl

theorem value_position (m : Machine) {a : Nat} (ha : a < Memory.addressLimit) :
    value m ⟨.position, a⟩ = .ok (m.memory.get a) := by
  simp [value, place?, Memory.address_natCast ha, Except.map]

theorem target_position (m : Machine) (here : Nat) {a : Nat} (ha : a < Memory.addressLimit) :
    target m here ⟨.position, a⟩ = .ok a :=
  Memory.address_natCast ha

theorem words_position (m : Machine) {a : Nat} (ha : a < Memory.addressLimit) : words m ⟨.position, a⟩ = [a] := by
  simp [words, place?, Memory.address_natCast ha, Except.toOption]

theorem words_congr {m m' : Machine} {x : Meaning} (hbase : m'.base = m.base) : x.words m' = x.words m := by
  unfold words
  rw [hbase]

theorem target_congr {m m' : Machine} {x : Meaning} (hbase : m'.base = m.base) (here : Nat) :
    x.target m' here = x.target m here := by
  unfold target
  rw [hbase]

end Meaning

/-! ## Operands -/

/-- The current content of an operand word: what it was linked to, or what is there if a label stands for it. -/
def Cell.content (addresses : Addresses) (memory : Memory) (c : Cell) : Int :=
  match c.labels with
  | [] => c.word.value (Assembly.addressIn addresses)
  | l :: _ => memory.get (Assembly.addressIn addresses l)

namespace Machine

variable (m : Machine)

/-- The record that is reached from a record by following parent words. -/
def climb : Nat → Int → Except Fault Int
  | 0, record => .ok record
  | n + 1, record => do
    let outer ← Meaning.value m ⟨.position, record⟩
    climb n outer

/-- The parent words that are followed. -/
def climbWords : Nat → Int → List Nat
  | 0, _ => []
  | n + 1, record =>
    Meaning.words m ⟨.position, record⟩ ++
      match Meaning.value m ⟨.position, record⟩ with
      | .error _ => []
      | .ok outer => climbWords n outer

end Machine

namespace Operand

variable (addresses : Addresses) (resolve : String → Option Resolution) (m : Machine)

/-- What the operand means on a machine, with the addresses of labels and the slots of names. -/
def meaning : Operand → Except Fault Meaning
  | .const mode cell => .ok ⟨mode, cell.content addresses m.memory⟩
  | .offset base amount => do
    let x ← meaning base
    let y ← meaning amount
    let v ← y.value m
    return ⟨x.mode, x.raw + v⟩
  | .deref pointer => do
    let x ← meaning pointer
    let v ← x.value m
    return ⟨.immediate, v⟩
  | .relabel mode o => do
    let x ← meaning o
    return ⟨mode, x.raw⟩
  | .spill slot => do
    let x ← meaning slot
    let v ← x.value m
    return ⟨.position, v⟩
  | .var name scopeSlot =>
    match resolve name with
    -- such a variable is not lowered
    | none => .ok ⟨.position, 0⟩
    | some (.fixed location index) =>
      .ok ⟨.position, Assembly.addressIn addresses location + (Heap.recordHeader + index : Nat)⟩
    | some (.dynamic levelsUp index) => do
      let scope ← Meaning.value m ⟨.relative, scopeSlot⟩
      let record ← m.climb levelsUp scope
      return ⟨.position, record + (Heap.recordHeader + index : Nat)⟩

/-- The words that the value of the operand is read from, once its meaning is known. -/
def valueWords (o : Operand) : List Nat :=
  match o.meaning addresses resolve m with
  | .error _ => []
  | .ok x => x.words m

/-- The words that the meaning of the operand is read from, operand words apart. -/
def words : Operand → List Nat
  | .const _ _ => []
  | .offset base amount => words base ++ words amount ++ amount.valueWords addresses resolve m
  | .deref o | .spill o => words o ++ o.valueWords addresses resolve m
  | .relabel _ o => words o
  | .var name scopeSlot =>
    match resolve name with
    | some (.dynamic levelsUp _) =>
      Meaning.words m ⟨.relative, scopeSlot⟩ ++
        match Meaning.value m ⟨.relative, scopeSlot⟩ with
        | .error _ => []
        | .ok scope => m.climbWords levelsUp scope
    | _ => []

end Operand

/-! ## Instructions -/

/-- What an instruction does, once its operands are known. -/
inductive Action where
  /-- Stores a value at an address. -/
  | store (dest : Nat) (v : Int)
  /-- Stores what the host hands over, if there is an address for it. -/
  | input (dest : Except Fault Nat)
  /-- Hands a value to the host. -/
  | output (v : Int)
  /-- Goes on elsewhere. -/
  | goto (a : Nat)
  /-- Goes on behind the instruction. -/
  | pass
  /-- Moves the base. -/
  | shift (v : Int)
  deriving DecidableEq

namespace Action

/-- What the machine in front of the instruction is about to do, if the code ends at `finish`. -/
def demand (finish : Nat) (m : Machine) : Action → Demand
  | .store dest v => .proceed { m with memory := m.memory.set dest v, ip := .ofNat finish }
  | .input dest => .read dest
  | .output v => .write v
  | .goto a => .proceed { m with ip := .ofNat a }
  | .pass => .proceed { m with ip := .ofNat finish }
  | .shift v => .proceed { m with base := m.base + v, ip := .ofNat finish }

/-- The same for an action that there may be none of. -/
def demanded (finish : Nat) (m : Machine) : Except Fault Action → Demand
  | .error e => .fault e
  | .ok action => action.demand finish m

variable (m : Machine) (here : Nat)

/-- A function of two values is stored. -/
def combined (f : Int → Int → Int) (x y z : Meaning) : Except Fault Action := do
  let v ← x.value m
  let w ← y.value m
  let dest ← z.target m here
  return .store dest (f v w)

/-- A value is stored as it is. -/
def copied (x z : Meaning) : Except Fault Action := do
  let v ← x.value m
  let dest ← z.target m here
  return .store dest v

variable {m here}

/-- A second value that changes nothing is as good as none. -/
theorem combined_right {f : Int → Int → Int} {k : Int} (hf : ∀ v, f v k = v) (x z : Meaning) :
    combined m here f x ⟨.immediate, k⟩ z = copied m here x z := by
  unfold combined copied
  simp [Meaning.value, Meaning.place?, bind, Except.bind, hf]

theorem combined_left {f : Int → Int → Int} {k : Int} (hf : ∀ v, f k v = v) (x z : Meaning) :
    combined m here f ⟨.immediate, k⟩ x z = copied m here x z := by
  unfold combined copied
  simp [Meaning.value, Meaning.place?, bind, Except.bind, hf]

variable (m)

/-- The way goes on at an address if the condition is zero, or if it is not, as `onZero` says. -/
def branched (onZero : Bool) (x y : Meaning) : Except Fault Action := do
  let v ← x.value m
  let w ← y.value m
  if (v == 0) == onZero then
    let a ← Memory.address w
    return .goto a
  else
    return .pass

end Action

/-- An instruction before its operands are lowered. -/
inductive Request where
  | add (a b out : Operand)
  | mult (a b out : Operand)
  | lessThan (a b out : Operand)
  | equals (a b out : Operand)
  | readTo (out : Operand)
  | write (value : Operand)
  | jumpIfTrue (cond target : Operand)
  | jumpIfFalse (cond target : Operand)
  | adjustBase (amount : Operand)
  | copy (source target : Operand)

namespace Request

/-- The code of the request. -/
def emit : Request → Emit (List Item)
  | .add a b out => Emit.add a b out
  | .mult a b out => Emit.mult a b out
  | .lessThan a b out => Emit.lessThan a b out
  | .equals a b out => Emit.equals a b out
  | .readTo out => Emit.readTo out
  | .write value => Emit.write value
  | .jumpIfTrue cond target => Emit.jumpIfTrue cond target
  | .jumpIfFalse cond target => Emit.jumpIfFalse cond target
  | .adjustBase amount => Emit.adjustBase amount
  | .copy source target => Emit.copy source target

/-- The operands whose values are used. -/
def sources : Request → List Operand
  | .add a b _ | .mult a b _ | .lessThan a b _ | .equals a b _ => [a, b]
  | .readTo _ => []
  | .write value => [value]
  | .jumpIfTrue cond target | .jumpIfFalse cond target => [cond, target]
  | .adjustBase amount => [amount]
  | .copy source _ => [source]

/-- The operands that something is stored through. -/
def targets : Request → List Operand
  | .add _ _ out | .mult _ _ out | .lessThan _ _ out | .equals _ _ out | .readTo out => [out]
  | .copy _ target => [target]
  | .write _ | .jumpIfTrue _ _ | .jumpIfFalse _ _ | .adjustBase _ => []

/-- The words of the instruction itself, without the code of its operands. -/
def size : Request → Nat
  | .add .. | .mult .. | .lessThan .. | .equals .. | .copy .. => 4
  | .jumpIfTrue .. | .jumpIfFalse .. => 3
  | .readTo _ | .write _ | .adjustBase _ => 2

variable (addresses : Addresses) (resolve : String → Option Resolution) (m : Machine)

/-- The action of the request, whose instruction word is at `here`, on a machine. All operands are made out
before the first of their values is used. -/
def action (here : Nat) (r : Request) : Except Fault Action :=
  let meaning := Operand.meaning addresses resolve m
  match r with
  | .add a b out => do Action.combined m here (· + ·) (← meaning a) (← meaning b) (← meaning out)
  | .mult a b out => do Action.combined m here (· * ·) (← meaning a) (← meaning b) (← meaning out)
  | .lessThan a b out => do
    Action.combined m here (fun v w => Machine.flag (v < w)) (← meaning a) (← meaning b) (← meaning out)
  | .equals a b out => do
    Action.combined m here (fun v w => Machine.flag (v == w)) (← meaning a) (← meaning b) (← meaning out)
  | .readTo out => do return .input ((← meaning out).target m here)
  | .write value => do return .output (← (← meaning value).value m)
  | .jumpIfTrue cond target => do Action.branched m false (← meaning cond) (← meaning target)
  | .jumpIfFalse cond target => do Action.branched m true (← meaning cond) (← meaning target)
  | .adjustBase amount => do return .shift (← (← meaning amount).value m)
  | .copy source target => do Action.copied m here (← meaning source) (← meaning target)

/-- The words that the action is read from. -/
def words (r : Request) : List Nat :=
  (r.sources ++ r.targets).flatMap (Operand.words addresses resolve m) ++
    r.sources.flatMap (Operand.valueWords addresses resolve m)

end Request

end Lamcode
