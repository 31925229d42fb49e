import Lamcode.Machine.Fault

/-!
# Lamcode.Machine.Instruction — operations, addressing modes and the words that encode them

An instruction word holds an operation in its two low decimal digits and, from the third digit up,
one mode digit per operand. `Instruction.encode` packs the word and `Instruction.decode` takes it
apart. Decoding works on every integer: remainder and quotient are cut toward zero, so a negative
word has a negative low part, which is no operation.
-/

namespace Lamcode

/-- How an operand word is read. -/
inductive Mode where
  /-- The operand is an address. -/
  | position
  /-- The operand is the value itself. -/
  | immediate
  /-- The operand is an offset from the relative base. -/
  | relative
  deriving DecidableEq

namespace Mode

/-- The digit that stands for the mode. -/
def digit : Mode → Int
  | .position => 0
  | .immediate => 1
  | .relative => 2

/-- The mode a digit stands for. -/
def ofDigit? (d : Int) : Option Mode :=
  if d = 0 then some .position
  else if d = 1 then some .immediate
  else if d = 2 then some .relative
  else none

@[simp] theorem ofDigit?_digit (m : Mode) : ofDigit? m.digit = some m := by
  cases m <;> rfl

/-- The name of the mode in a message. -/
def name : Mode → String
  | .position => "Position"
  | .immediate => "Immediate"
  | .relative => "Relative"

end Mode

/-- The operations of the machine. -/
inductive Opcode where
  | add
  | multiply
  | read
  | write
  | jumpIfTrue
  | jumpIfFalse
  | lessThan
  | equals
  | adjustBase
  | halt
  deriving DecidableEq

namespace Opcode

/-- The number that stands for the operation. -/
def code : Opcode → Int
  | .add => 1
  | .multiply => 2
  | .read => 3
  | .write => 4
  | .jumpIfTrue => 5
  | .jumpIfFalse => 6
  | .lessThan => 7
  | .equals => 8
  | .adjustBase => 9
  | .halt => 99

/-- All operations, in the order of their codes. -/
def all : List Opcode :=
  [.add, .multiply, .read, .write, .jumpIfTrue, .jumpIfFalse, .lessThan, .equals, .adjustBase, .halt]

/-- The operation a number stands for. -/
def ofCode? (n : Int) : Option Opcode :=
  all.find? fun op => op.code == n

@[simp] theorem ofCode?_code (op : Opcode) : ofCode? op.code = some op := by
  cases op <;> rfl

/-- How many operand words follow the instruction word. -/
def arity : Opcode → Nat
  | .add | .multiply | .lessThan | .equals => 3
  | .jumpIfTrue | .jumpIfFalse => 2
  | .read | .write | .adjustBase => 1
  | .halt => 0

/-- The name of the operation in a listing. -/
def mnemonic : Opcode → String
  | .add => "ADD"
  | .multiply => "MULT"
  | .read => "READ"
  | .write => "WRITE"
  | .jumpIfTrue => "JTRUE"
  | .jumpIfFalse => "JFALSE"
  | .lessThan => "LT"
  | .equals => "EQ"
  | .adjustBase => "REBASE"
  | .halt => "EXIT"

end Opcode

/-- An operation with the modes of its operands, first operand first. -/
structure Instruction where
  opcode : Opcode
  modes : List Mode
  deriving DecidableEq

namespace Instruction

/-- The mode digits as one number, first operand in the lowest digit. -/
def modeDigits : List Mode → Int
  | [] => 0
  | m :: ms => m.digit + 10 * modeDigits ms

/-- The word for an operation with the given operand modes. -/
def encode (op : Opcode) (modes : List Mode) : Int :=
  op.code + 100 * modeDigits modes

/-- Reads `n` mode digits, lowest first; fails with the first digit that is no mode. -/
def decodeModes : Nat → Int → Except Int (List Mode)
  | 0, _ => .ok []
  | n + 1, rest =>
    match Mode.ofDigit? (rest.tmod 10) with
    | none => .error (rest.tmod 10)
    | some m =>
      match decodeModes n (rest.tdiv 10) with
      | .error d => .error d
      | .ok ms => .ok (m :: ms)

/-- The instruction that the word at `address` encodes. Digits above the modes in use are ignored. -/
def decode (word : Int) (address : Nat) : Except Fault Instruction :=
  match Opcode.ofCode? (word.tmod 100) with
  | none => .error (.unknownOpcode (word.tmod 100) address)
  | some op =>
    match decodeModes op.arity (word.tdiv 100) with
    | .error d => .error (.unsupportedMode d address)
    | .ok modes => .ok ⟨op, modes⟩

/-- The mode of the operand at `index`; operands the operation does not have read as `position`. -/
def mode (i : Instruction) (index : Nat) : Mode :=
  i.modes.getD index .position

end Instruction

end Lamcode
