import Lamcode.Text.Numeral
import Lamcode.Machine.Listing

/-!
# Lamcode.Journal — what happens on the way to a result

Compiling, linking, running and scheduling leave a record of their main steps. A record is a value:
functions that compute a journal stand beside the functions that compute the result, and neither
depends on the other.
-/

namespace Lamcode

/-- How much detail a record belongs to. -/
inductive Detail where
  | debug
  | trace
  deriving DecidableEq

/-- One step worth recording. -/
inductive Event where
  /-- The built-ins that a program needs, in catalog order. -/
  | builtinsChosen (names : List String)
  | builtinWritten (name : String) (words : Nat)
  | labelsPlaced (labels words : Nat)
  | programLinked (words labels : Nat)
  /-- The instruction at `address` is about to be executed. -/
  | instruction (address : Nat) (base : Int) (text : String)
  | machineResumed (machine : Nat)
  | machineHalted (machine : Nat)
  deriving DecidableEq

namespace Event

/-- The detail that a record belongs to. -/
def detail : Event → Detail
  | .labelsPlaced .. | .instruction .. => .trace
  | _ => .debug

/-- The text of a record. -/
def text : Event → String
  | .builtinsChosen names => "builtins: " ++ " ".intercalate names
  | .builtinWritten name words => "builtin " ++ name ++ " is " ++ Nat.repr words ++ " words"
  | .labelsPlaced labels words =>
    "placed " ++ Nat.repr labels ++ " labels over " ++ Nat.repr words ++ " words"
  | .programLinked words labels =>
    "program is " ++ Nat.repr words ++ " words, " ++ Nat.repr labels ++ " labels"
  | .instruction address base text =>
    Listing.alignRight 8 address ++ " base=" ++ Text.Numeral.write base ++ " " ++ text
  | .machineResumed machine => "scheduler: switching to machine " ++ Nat.repr machine
  | .machineHalted machine => "scheduler: machine " ++ Nat.repr machine ++ " halted"

end Event

end Lamcode
