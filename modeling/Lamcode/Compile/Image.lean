import Lamcode.Builtin.Code
import Lamcode.Compile.Fragment
import Lamcode.Link.Assembly

/-!
# Lamcode.Compile.Image — whole programs

An image holds, in this order: the code of the assignments, the routine that allocates scope records,
the built-ins, their record, the record of the globals, the function bodies, the heap cursor and the
scope pointer that the stack starts above.
-/

namespace Lamcode

/-- What a program is compiled for. -/
structure Options where
  /-- Varies the encodings; without a seed the first one is always taken. -/
  seed : Option UInt64
  /-- The first heap address. -/
  ramBegin : Nat
  deriving DecidableEq

/-- No seed, and a heap that starts at one million. -/
def Options.standard : Options :=
  ⟨none, 1000000⟩

/-- Why a program cannot be compiled. -/
inductive CompileError where
  | emit (e : EmitError)
  | link (e : LinkError)
  deriving DecidableEq

/-- The text of the error. -/
def CompileError.message : CompileError → String
  | .emit e => e.message
  | .link e => e.message

/-- A linked program and what is needed to look into it. -/
structure Compiled where
  assembly : Assembly
  labels : LabelTable
  /-- The built-ins in the image, in catalog order. -/
  builtins : List Builtin
  /-- The names of the globals, in slot order. -/
  globals : List String

namespace Compiled

/-- The words of the image. -/
def words (c : Compiled) : List Int :=
  c.assembly.words

/-- The address of the record of the globals. -/
def globalScope? (c : Compiled) : Option Nat :=
  c.assembly.address? .globalScope

/-- The address of the word that the stack starts above. -/
def stackBegin? (c : Compiled) : Option Nat :=
  c.assembly.address? .stackBegin

/-- The address of the slot of a global. -/
def globalSlot? (c : Compiled) (name : String) : Option Nat := do
  let index ← c.globals.idxOf? name
  let record ← c.globalScope?
  return record + Heap.recordHeader + index

/-- The placed labels as addresses with descriptions, for a listing. -/
def symbols (c : Compiled) : List (Nat × String) :=
  c.assembly.symbols.map fun (l, address) => (address, c.labels.describe l)

end Compiled

namespace Compile

open Emit Operand

/-- The routine that allocates scope records: slot 0 holds the number of slots, slot 1 the parent
record and slot 2 the address to go on at. It leaves the new record in slot 0. -/
def allocator : Emit (List Item) :=
  concat [placeLabel .allocateScope, copy (.wordAt .ramPointer) (rel 3), writeToRam (rel 1),
    addTo (rel 0) (.wordAt .ramPointer), copy (rel 3) (rel 0), jump (rel 2)]

/-- Binds the names of built-ins and hands out a label for each. -/
def declare : List Builtin → Emit (List (Builtin × Label))
  | [] => pure []
  | b :: rest => do
    bindName ScopeTable.builtins b.name
    let location ← fresh b.name
    let more ← declare rest
    return (b, location) :: more

/-- Writes the code of built-ins. -/
def builtinCode : List (Builtin × Label) → Emit (List (Builtin × List Item))
  | [] => pure []
  | (b, location) :: rest => do
    let code ← b.code location
    let more ← builtinCode rest
    return (b, code) :: more

/-- All items of a program, and those of each built-in. -/
structure Draft where
  items : List Item
  builtins : List (Builtin × List Item)

/-- Writes a whole program. -/
def draft (p : Program) (ramBegin : Nat) : Emit Draft := do
  let declared ← declare (Builtin.chosen p.usedNames)
  let start ← adjustBase (.offset (.addressOf .stackBegin) (.int 2))
  let main ← Assignment.emitAll ScopeTable.globals p.assignments
  let allocator ← allocator
  let builtins ← builtinCode declared
  let globals := (p.scopes.get ScopeTable.globals).names
  return {
    items := start ++ main.inPlace ++ halt ++ allocator ++ builtins.flatMap (·.2) ++
      .labeled (.num 0) .builtinScope :: declared.map (fun (_, l) => .word (.addr l)) ++
      .labeled (.addr .builtinScope) .globalScope :: globals.map (fun _ => .word (.num 0)) ++
      main.hoisted ++
      [.labeled (.num ramBegin) .ramPointer, .labeled (.addr .globalScope) .stackBegin]
    builtins }

/-- Writes a whole program from the beginning, with any way to choose between encodings. -/
def runDraftWith (p : Program) (ramBegin : Nat) (choice : Choice) : Except EmitError Draft × EmitState :=
  (draft p ramBegin).runAt ⟨ScopeTable.globals, .generated⟩ ⟨.reserved, p.scopes, choice⟩

/-- Writes a whole program from the beginning. -/
def runDraft (p : Program) (o : Options) : Except EmitError Draft × EmitState :=
  runDraftWith p o.ramBegin (.ofSeed? o.seed)

/-- Compiles a program, with any way to choose between encodings. -/
def programWith (p : Program) (ramBegin : Nat) (choice : Choice) : Except CompileError Compiled :=
  match runDraftWith p ramBegin choice with
  | (.error e, _) => .error (.emit e)
  | (.ok d, s) =>
    match Assembly.link s.labels d.items with
    | .error e => .error (.link e)
    | .ok assembly =>
      .ok ⟨assembly, s.labels, Builtin.chosen p.usedNames, (p.scopes.get ScopeTable.globals).names⟩

/-- Compiles a program. -/
def program (p : Program) (o : Options) : Except CompileError Compiled :=
  programWith p o.ramBegin (.ofSeed? o.seed)

/-- The records that compiling leaves. -/
def events (p : Program) (o : Options) : List Event :=
  .builtinsChosen ((Builtin.chosen p.usedNames).map Builtin.name) ::
    match runDraft p o with
    | (.error _, _) => []
    | (.ok d, s) =>
      d.builtins.map (fun (b, items) => .builtinWritten b.name (items.countP Item.isCell)) ++
        Assembly.events d.items ++
          match Assembly.link s.labels d.items with
          | .error _ => []
          | .ok a => [.programLinked a.size s.labels.size]

end Compile

end Lamcode
