import Lamcode.Link.Item
import Lamcode.Machine.Instruction

/-!
# Lamcode.Emit.Operand — operands as they are meant and as they are written

An `Operand` says what an instruction works on: a word, a word some way off, what a word points at, a
variable. A `Lowered` operand is what the machine can take: one operand word in one of the three modes,
and the code that has to run before the instruction so that this word is right.
-/

namespace Lamcode

/-- What an instruction works on. -/
inductive Operand where
  /-- An operand word as it stands. -/
  | const (mode : Mode) (cell : Cell)
  /-- The word of `base` plus the value of `amount`, in the mode of `base`. -/
  | offset (base amount : Operand)
  /-- What a position operand points at, as an immediate one. -/
  | deref (pointer : Operand)
  /-- The same word in another mode. -/
  | relabel (mode : Mode) (of : Operand)
  /-- The address that a relative operand's slot holds, as a position operand. -/
  | spill (slot : Operand)
  /-- The slot of a variable; the scope pointer is in frame slot `scopeSlot`. -/
  | var (name : String) (scopeSlot : Int)

namespace Operand

/-- The frame slot that holds the scope pointer while expressions are evaluated. -/
def scopeSlot : Int := -2

/-- The word as an address. -/
def ptr (w : Word) : Operand :=
  .const .position (.plain w)

/-- The word as a value. -/
def imm (w : Word) : Operand :=
  .const .immediate (.plain w)

/-- The number as a value. -/
def int (n : Int) : Operand :=
  imm (.num n)

/-- The address of a label as a value. -/
def addressOf (l : Label) : Operand :=
  imm (.addr l)

/-- The word that a label stands for. -/
def wordAt (l : Label) : Operand :=
  ptr (.addr l)

/-- A slot of the frame. -/
def rel (offset : Int) : Operand :=
  .const .relative (.plain (.num offset))

/-- A zero word that a label stands for, so that code before it can write it. -/
def patched (mode : Mode) (l : Label) : Operand :=
  .const mode (.labeled (.num 0) l)

/-- The operand's word as an address. -/
def toPointer (o : Operand) : Operand :=
  .relabel .position o

/-- A variable, seen from an expression. -/
def named (name : String) : Operand :=
  .var name scopeSlot

end Operand

/-- An operand word and the code that has to run before the instruction it belongs to. -/
structure Lowered where
  mode : Mode
  cell : Cell
  /-- Whether the word is known before the program runs. -/
  isFixed : Bool
  setup : List Item

namespace Lowered

/-- An operand word that needs no code. -/
def fixed (mode : Mode) (cell : Cell) : Lowered :=
  ⟨mode, cell, true, []⟩

/-- The word that a label stands for, as an operand. -/
def wordAt (l : Label) : Lowered :=
  fixed .position (.plain (.addr l))

/-- A zero word that a label stands for and that `setup` writes. -/
def written (mode : Mode) (l : Label) (setup : List Item) : Lowered :=
  ⟨mode, .labeled (.num 0) l, false, setup⟩

/-- An instruction: the code of its operands, the instruction word and the operand words. -/
def instruction (op : Opcode) (operands : List Lowered) : List Item :=
  operands.flatMap (·.setup) ++
    .word (.num (Instruction.encode op (operands.map (·.mode)))) ::
      operands.map fun o => .cell o.cell

end Lowered

end Lamcode
