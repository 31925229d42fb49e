import Lamcode.Text.Numeral
import Lamcode.Text.Quoted

/-!
# Lamcode.Machine.Fault — why a machine stops before its program halts

Every way in which an instruction, a host or a schedule can fail, as a cause with the values that
belong to it. The wording of each cause is in `Fault.message` and nowhere else.
-/

namespace Lamcode

/-- The two kinds of instruction that talk to a host. -/
inductive Exchange where
  | read
  | write
  deriving DecidableEq

/-- The verb that names the exchange in a message. -/
def Exchange.verb : Exchange → String
  | .read => "read"
  | .write => "write"

/-- Why a machine stopped before its program halted. -/
inductive Fault where
  /-- The two low digits of the word at `address` are no operation. -/
  | unknownOpcode (code : Int) (address : Nat)
  /-- A mode digit of the word at `address` is no addressing mode. -/
  | unsupportedMode (digit : Int) (address : Nat)
  /-- The instruction at `address` stores through an immediate operand. -/
  | immediateWrite (address : Nat)
  | negativeAddress (address : Int)
  | addressOutOfRange (address : Int)
  | noInput
  /-- A console line that is no numeral. -/
  | badInput (text : String)
  | alreadyRunning
  | alreadyHalted
  /-- The script was over when `machine` wanted to read or write. -/
  | scriptEnded (machine : Nat)
  /-- The script's next message is not the one that lets `machine` read or write. -/
  | scriptMismatch (machine : Nat) (wanted : Exchange)
  | unknownMachine (machine : Nat)
  | haltedMachine (machine : Nat)
  /-- The stream under a host failed. -/
  | stream (reason : String)
  deriving DecidableEq

/-- The text of a fault. -/
def Fault.message : Fault → String
  | .unknownOpcode code address =>
    "unknown opcode " ++ Text.Numeral.write code ++ " at address " ++ Nat.repr address
  | .unsupportedMode digit address =>
    "unsupported addressing mode " ++ Text.Numeral.write digit ++ " at address " ++ Nat.repr address
  | .immediateWrite address =>
    "cannot write through an immediate operand at address " ++ Nat.repr address
  | .negativeAddress address => "accessed negative address " ++ Text.Numeral.write address
  | .addressOutOfRange address => "address " ++ Text.Numeral.write address ++ " is out of range"
  | .noInput => "no input available"
  | .badInput text => "could not read a number from " ++ Text.quote text
  | .alreadyRunning => "machine is already running"
  | .alreadyHalted => "machine has already halted"
  | .scriptEnded machine =>
    "script ended while machine " ++ Nat.repr machine ++ " still needed it"
  | .scriptMismatch machine wanted =>
    "machine " ++ Nat.repr machine ++ " tried to " ++ wanted.verb ++
      " but the script expected the opposite"
  | .unknownMachine machine =>
    "script addressed machine " ++ Nat.repr machine ++ ", which does not exist"
  | .haltedMachine machine =>
    "script addressed machine " ++ Nat.repr machine ++ ", which has halted"
  | .stream reason => "host i/o failed: " ++ reason

end Lamcode
