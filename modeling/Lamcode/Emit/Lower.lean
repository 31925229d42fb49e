import Lamcode.Emit.Choice
import Lamcode.Emit.Operand
import Lamcode.Machine.Heap
import Lamcode.Scope.Program

/-!
# Lamcode.Emit.Lower — writing instructions

Code is written by a computation that hands out labels, resolves names from the site it stands at and
chooses between encodings. What it has used up by then stays used when it fails.

Each kind of operand has its own way down to a `Lowered` one. Where the operand word depends on
something only known at run time, the code in front of the instruction writes it into place: the
program changes itself.
-/

namespace Lamcode

/-- Why an operand cannot be lowered. -/
inductive EmitError where
  /-- A name that no scope around the site binds. -/
  | unresolved (name : String) (pos : Position)
  /-- A change to the mode that the operand has already. -/
  | modeConversion (mode : Mode)
  | notAPointer (mode : Mode)
  | notRelative (mode : Mode)
  /-- A word that a label stands for would vanish in a sum. -/
  | labeledFold
  deriving DecidableEq

/-- The text of the error. -/
def EmitError.message : EmitError → String
  | .unresolved name pos => "unresolved name '" ++ name ++ "' at " ++ pos.text
  | .modeConversion mode =>
    "operand is already " ++ mode.name ++ "; cannot convert " ++ mode.name ++ " to " ++ mode.name
  | .notAPointer mode => "cannot dereference a " ++ mode.name ++ " operand"
  | .notRelative mode => "only relative operands can be spilled, not " ++ mode.name
  | .labeledFold => "a labelled operand cannot be folded into a constant"

/-- What writing code uses up: labels, scopes and choices. -/
structure EmitState where
  labels : LabelTable
  scopes : ScopeTable
  choice : Choice

/-- A computation that writes code for a site. -/
abbrev Emit := ReaderT Site (ExceptT EmitError (StateM EmitState))

namespace Emit

/-- Runs a computation at a site. -/
def runAt {β : Type} (e : Emit β) (site : Site) (s : EmitState) : Except EmitError β × EmitState :=
  (ReaderT.run e site).run.run s

/-- Hands out a label. -/
def fresh (name : String) : Emit Label :=
  modifyGet fun s =>
    let (l, labels) := s.labels.fresh name
    (l, { s with labels })

/-- Opens a scope. -/
def openScope (outer : Nat) : Emit Nat :=
  modifyGet fun s =>
    let (inner, scopes) := s.scopes.child outer
    (inner, { s with scopes })

/-- Binds a name in a scope. -/
def bindName (scope : Nat) (name : String) : Emit Unit :=
  modify fun s => { s with scopes := s.scopes.bind scope name }

/-- Chooses one of `n` encodings. -/
def pick (n : Nat) : Emit Nat :=
  modifyGet fun s =>
    let (k, choice) := s.choice.pick n
    (k, { s with choice })

/-- Chooses a number that is not zero. -/
def pickNonzero : Emit Int :=
  modifyGet fun s =>
    let (k, choice) := s.choice.nonzero
    (k, { s with choice })

/-- Writes code that stands at another site. -/
def within {β : Type} (site : Site) (e : Emit β) : Emit β :=
  withReader (fun _ => site) e

/-- Writes several pieces of code one behind the other. -/
def concat : List (Emit (List Item)) → Emit (List Item)
  | [] => pure []
  | e :: rest => do
    let code ← e
    let more ← concat rest
    return code ++ more

/-- A label for the code that comes next. -/
def placeLabel (l : Label) : Emit (List Item) :=
  pure [.hanging l]

/-! ## Lowering -/

/-- Code that stores the value of the first operand through the second one: the sum with zero or the
product with one, either way round. -/
def copyLowered (source target : Lowered) : Emit (List Item) := do
  let zero := Lowered.fixed .immediate (.plain (.num 0))
  let one := Lowered.fixed .immediate (.plain (.num 1))
  match ← pick 4 with
  | 0 => return Lowered.instruction .add [source, zero, target]
  | 1 => return Lowered.instruction .add [zero, source, target]
  | 2 => return Lowered.instruction .multiply [source, one, target]
  | _ => return Lowered.instruction .multiply [one, source, target]

/-- The word of `base` plus the value of `amount`: folded if both are known, else added by code. -/
def offsetLowered (base amount : Lowered) : Emit Lowered := do
  if base.isFixed && amount.isFixed && amount.mode == .immediate then
    if base.cell.isLabeled || amount.cell.isLabeled then throw .labeledFold
    return .fixed base.mode (.plain (.sum [base.cell.word, amount.cell.word]))
  let tag ← fresh "offset"
  return .written base.mode tag
    (Lowered.instruction .add [{ base with mode := .immediate }, amount, .wordAt tag])

/-- What a position operand points at. -/
def derefLowered (pointer : Lowered) : Emit Lowered := do
  if pointer.mode != .position then throw (.notAPointer pointer.mode)
  let tag ← fresh "deref"
  let setup ← copyLowered pointer (.wordAt tag)
  return .written .immediate tag setup

/-- The same word in another mode. -/
def relabelLowered (mode : Mode) (o : Lowered) : Emit Lowered := do
  if o.mode == mode then throw (.modeConversion mode)
  return { o with mode }

/-- The address that a frame slot holds. -/
def spillLowered (slot : Lowered) : Emit Lowered := do
  if slot.mode != .relative then throw (.notRelative slot.mode)
  let tag ← fresh "spill"
  let setup ← copyLowered slot (.wordAt tag)
  return .written .position tag setup

/-- Code that replaces the record address in the word at `tag` by that of its parent, `n` times. -/
def followParents (tag : Label) : Nat → Emit (List Item)
  | 0 => pure []
  | n + 1 => do
    let parent ← derefLowered (.wordAt tag)
    let parent ← relabelLowered .position parent
    let code ← copyLowered parent (.wordAt tag)
    let more ← followParents tag n
    return code ++ more

/-- The slot of a variable. A slot of a fixed record has a known address; any other one is reached
from the scope pointer, through the parent records, in a word of its own. -/
def varLowered (name : String) (scopeSlot : Int) : Emit Lowered := do
  let site ← read
  let s ← get
  match s.scopes.resolve site.scope name with
  | none => throw (.unresolved name site.pos)
  | some (.fixed location offset) =>
    let slot ← offsetLowered (.fixed .immediate (.plain (.addr location)))
      (.fixed .immediate (.plain (.num (Heap.recordHeader + offset))))
    relabelLowered .position slot
  | some (.dynamic levelsUp offset) =>
    let tag ← fresh "var"
    let start ← copyLowered (.fixed .relative (.plain (.num scopeSlot))) (.wordAt tag)
    let climb ← followParents tag levelsUp
    let slot ← offsetLowered (.fixed .immediate (.plain (.num (Heap.recordHeader + offset))))
      (.wordAt tag)
    let store ← copyLowered slot (.wordAt tag)
    return .written .position tag (start ++ climb ++ store)

/-- Lowers an operand. -/
def lower : Operand → Emit Lowered
  | .const mode cell => pure (.fixed mode cell)
  | .offset base amount => do
    let base ← lower base
    let amount ← lower amount
    offsetLowered base amount
  | .deref pointer => do derefLowered (← lower pointer)
  | .relabel mode o => do relabelLowered mode (← lower o)
  | .spill slot => do spillLowered (← lower slot)
  | .var name scopeSlot => varLowered name scopeSlot

/-- Lowers operands from left to right. -/
def lowerAll : List Operand → Emit (List Lowered)
  | [] => pure []
  | o :: rest => do
    let o ← lower o
    let rest ← lowerAll rest
    return o :: rest

/-! ## Instructions -/

/-- One instruction. -/
def instruction (op : Opcode) (operands : List Operand) : Emit (List Item) := do
  return Lowered.instruction op (← lowerAll operands)

def add (a b out : Operand) : Emit (List Item) :=
  instruction .add [a, b, out]

def mult (a b out : Operand) : Emit (List Item) :=
  instruction .multiply [a, b, out]

def readTo (out : Operand) : Emit (List Item) :=
  instruction .read [out]

def write (value : Operand) : Emit (List Item) :=
  instruction .write [value]

def jumpIfTrue (cond target : Operand) : Emit (List Item) :=
  instruction .jumpIfTrue [cond, target]

def jumpIfFalse (cond target : Operand) : Emit (List Item) :=
  instruction .jumpIfFalse [cond, target]

def lessThan (a b out : Operand) : Emit (List Item) :=
  instruction .lessThan [a, b, out]

def equals (a b out : Operand) : Emit (List Item) :=
  instruction .equals [a, b, out]

def adjustBase (amount : Operand) : Emit (List Item) :=
  instruction .adjustBase [amount]

/-- The instruction that ends the program. -/
def halt : List Item :=
  [.word (.num Opcode.halt.code)]

/-! ## Short sequences -/

/-- Moves the frame by a number of words. -/
def moveStack (n : Int) : Emit (List Item) :=
  adjustBase (.int n)

/-- Stores the value of the first operand through the second one. -/
def copy (source target : Operand) : Emit (List Item) := do
  let source ← lower source
  let target ← lower target
  copyLowered source target

/-- Adds to the word of an operand. -/
def addTo (amount out : Operand) : Emit (List Item) := do
  match ← pick 2 with
  | 0 => add out amount out
  | _ => add amount out out

/-- Goes to an address: when zero is zero, or when a number that is not zero is not zero. -/
def jump (target : Operand) : Emit (List Item) := do
  match ← pick 3 with
  | 2 => jumpIfFalse (.int 0) target
  | _ =>
    let cond ← pickNonzero
    jumpIfTrue (.int cond) target

/-- Stores a value in the next free heap word, which is then no longer free. -/
def writeToRam (value : Operand) : Emit (List Item) :=
  concat [copy value (Operand.deref (.wordAt .ramPointer)).toPointer,
    addTo (.int 1) (.wordAt .ramPointer)]

end Emit

end Lamcode
