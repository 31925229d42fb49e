import Lamcode.Machine.Instruction

/-!
# Lamcode.Machine.Listing — an image as a list of instructions and data

A listing goes through an image from address 0. A word that decodes, with all its operands inside the
image, is an instruction line that covers the operands too; any other word is a data line of its own.
The symbols placed on the covered words come first: on the line's own address as a heading, on an
operand as a note.
-/

namespace Lamcode

/-- The name of a mode in front of an operand. -/
def Mode.listed : Mode → String
  | .position => "PTR"
  | .immediate => "ABS"
  | .relative => "SP"

/-- The instruction with its operands, as in `ADD(PTR 5, ABS 1, SP 0)`. At most three operands are
shown. -/
def Instruction.render (i : Instruction) (operands : List Int) : String :=
  let shown := (operands.zip [i.mode 0, i.mode 1, i.mode 2]).map fun (value, mode) =>
    mode.listed ++ " " ++ Text.Numeral.write value
  i.opcode.mnemonic ++ "(" ++ ", ".intercalate shown ++ ")"

namespace Listing

/-- One line of a listing. -/
inductive Line where
  /-- A symbol placed on the next line's own address. -/
  | heading (name : String)
  /-- A symbol placed on an operand of the next line. -/
  | note (name : String) (address : Nat)
  | instruction (address : Nat) (i : Instruction) (operands : List Int)
  | data (address : Nat) (word : Int)
  deriving DecidableEq

/-- A number in decimal, filled with spaces on the left to `width` characters. -/
def alignRight (width : Nat) (n : Nat) : String :=
  let digits := Nat.repr n
  String.ofList (List.replicate (width - digits.length) ' ') ++ digits

/-- The text of a line. -/
def Line.text : Line → String
  | .heading name => name ++ ":\n"
  | .note name address => "  ; " ++ name ++ " = operand at " ++ Nat.repr address ++ "\n"
  | .instruction address i operands =>
    alignRight 8 address ++ "  " ++ i.render operands ++ "\n"
  | .data address word =>
    alignRight 8 address ++ "  DATA " ++ Text.Numeral.write word ++ "\n"

/-- The names placed on an address, in the order of the symbol list. -/
def namesAt (symbols : List (Nat × String)) (address : Nat) : List String :=
  (symbols.filter fun s => s.1 == address).map (·.2)

/-- The notes for the operands of an instruction at `address`. -/
def notes (symbols : List (Nat × String)) (address arity : Nat) : List Line :=
  (List.range arity).flatMap fun k =>
    (namesAt symbols (address + 1 + k)).map fun name => .note name (address + 1 + k)

/-- The instruction that a word encodes when `following` words come after it in the image. -/
def fits (word : Int) (address following : Nat) : Option Instruction :=
  match Instruction.decode word address with
  | .error _ => none
  | .ok i => if i.opcode.arity ≤ following then some i else none

/-- The lines for the rest of an image that starts at `address`. -/
def linesFrom (symbols : List (Nat × String)) (address : Nat) : List Int → List Line
  | [] => []
  | word :: rest =>
    let headings := (namesAt symbols address).map Line.heading
    match fits word address rest.length with
    | none => headings ++ .data address word :: linesFrom symbols (address + 1) rest
    | some i =>
      headings ++ notes symbols address i.opcode.arity ++
        .instruction address i (rest.take i.opcode.arity) ::
          linesFrom symbols (address + 1 + i.opcode.arity) (rest.drop i.opcode.arity)
termination_by words => words.length
decreasing_by
  · exact Nat.lt_succ_self _
  · rw [List.length_drop, List.length_cons]
    omega

/-- The lines of an image. -/
def lines (words : List Int) (symbols : List (Nat × String)) : List Line :=
  linesFrom symbols 0 words

/-- The text of an image's listing. -/
def render (words : List Int) (symbols : List (Nat × String)) : String :=
  String.join ((lines words symbols).map Line.text)

end Listing

end Lamcode
