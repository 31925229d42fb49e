import Lamcode.Machine.Host
import Lamcode.Machine.Instruction
import Lamcode.Machine.Memory

/-!
# Lamcode.Machine.Run — one instruction, and running until a stop

`Machine.step` executes the instruction at `ip`. It returns the machine and the host state also on a
fault: memory and base are then those in front of the instruction. `Machine.run` repeats it until
the program halts, the host pauses the machine or a fault occurs, and `Machine.runToHalt` resumes
through every pause. Programs need not halt, so both take a bound on the number of instructions and
answer `none` when it is used up, which is neither a result nor a fault.
-/

namespace Lamcode

/-- Whether a machine may be run. -/
inductive Status where
  | idle
  | running
  | halted
  deriving DecidableEq

/-- Why a run returned without a fault. -/
inductive Outcome where
  | halted
  /-- The host asked for a pause; the machine may be run again. -/
  | suspended
  deriving DecidableEq

/-- What one instruction asks the run to do. -/
inductive Step where
  | proceed
  | suspend
  | halt
  deriving DecidableEq

/-- The step that a host's answer asks for. -/
def Flow.toStep : Flow → Step
  | .proceed => .proceed
  | .suspend => .suspend

/-- A machine: the address of its next instruction, its relative base and its memory. The address is a
word of 64 bits, so behind the last address there is the first one. -/
structure Machine where
  status : Status
  ip : UInt64
  base : Int
  memory : Memory

namespace Machine

variable {σ : Type}

/-- The machine that is about to run an image. -/
def ofWords (words : List Int) : Machine where
  status := .idle
  ip := 0
  base := 0
  memory := Memory.ofWords words

/-- The operand word at `index` of the instruction at `ip`. -/
def operand (m : Machine) (index : Nat) : Int :=
  m.memory.get (m.ip + 1 + .ofNat index).toNat

/-- The value of an operand. -/
def load (m : Machine) (i : Instruction) (index : Nat) : Except Fault Int :=
  match i.mode index with
  | .position => (Memory.address (m.operand index)).map m.memory.get
  | .immediate => .ok (m.operand index)
  | .relative => (Memory.address (m.base + m.operand index)).map m.memory.get

/-- The address an operand stores to. -/
def target (m : Machine) (i : Instruction) (index : Nat) : Except Fault Nat :=
  match i.mode index with
  | .position => Memory.address (m.operand index)
  | .immediate => .error (.immediateWrite m.ip.toNat)
  | .relative => Memory.address (m.base + m.operand index)

/-- The values of the first two operands and the address the third one stores to. -/
def binaryOperands (m : Machine) (i : Instruction) : Except Fault (Int × Int × Nat) := do
  let a ← m.load i 0
  let b ← m.load i 1
  let dest ← m.target i 2
  return (a, b, dest)

/-- Stores a function of the first two operands through the third one. -/
@[inline] def binary (m : Machine) (i : Instruction) (f : Int → Int → Int) (s : σ) :
    Except Fault Step × Machine × σ :=
  match m.binaryOperands i with
  | .error e => (.error e, m, s)
  | .ok (a, b, dest) =>
    (.ok .proceed, { m with memory := m.memory.set dest (f a b), ip := m.ip + 4 }, s)

/-- One for a comparison that holds and zero for one that does not. -/
def flag (b : Bool) : Int :=
  if b then 1 else 0

/-- Takes a value from the host and stores it. -/
@[inline] def readStep (host : Host σ) (m : Machine) (i : Instruction) (s : σ) :
    Except Fault Step × Machine × σ :=
  match host.read s with
  | (.error e, s) => (.error e, m, s)
  | (.ok (v, flow), s) =>
    match m.target i 0 with
    | .error e => (.error e, m, s)
    | .ok dest => (.ok flow.toStep, { m with memory := m.memory.set dest v, ip := m.ip + 2 }, s)

/-- Hands a value to the host. The machine has passed the instruction when the host answers. -/
@[inline] def writeStep (host : Host σ) (m : Machine) (i : Instruction) (s : σ) :
    Except Fault Step × Machine × σ :=
  match m.load i 0 with
  | .error e => (.error e, m, s)
  | .ok v =>
    match host.write v s with
    | (.error e, s) => (.error e, { m with ip := m.ip + 2 }, s)
    | (.ok flow, s) => (.ok flow.toStep, { m with ip := m.ip + 2 }, s)

/-- Goes to the address in the second operand when the first one is zero or not, as `onZero` says.
Both operands are loaded in any case; the target has to be an address only when it is taken. -/
@[inline] def jumpStep (m : Machine) (i : Instruction) (onZero : Bool) (s : σ) :
    Except Fault Step × Machine × σ :=
  match m.load i 0 with
  | .error e => (.error e, m, s)
  | .ok cond =>
    match m.load i 1 with
    | .error e => (.error e, m, s)
    | .ok dest =>
      if (cond == 0) == onZero then
        match Memory.address dest with
        | .error e => (.error e, m, s)
        | .ok a => (.ok .proceed, { m with ip := .ofNat a }, s)
      else (.ok .proceed, { m with ip := m.ip + 3 }, s)

/-- Moves the relative base. -/
@[inline] def adjustStep (m : Machine) (i : Instruction) (s : σ) :
    Except Fault Step × Machine × σ :=
  match m.load i 0 with
  | .error e => (.error e, m, s)
  | .ok shift => (.ok .proceed, { m with base := m.base + shift, ip := m.ip + 2 }, s)

/-- Executes a decoded instruction. -/
def execute (host : Host σ) (m : Machine) (i : Instruction) (s : σ) :
    Except Fault Step × Machine × σ :=
  match i.opcode with
  | .add => m.binary i (· + ·) s
  | .multiply => m.binary i (· * ·) s
  | .lessThan => m.binary i (fun a b => flag (a < b)) s
  | .equals => m.binary i (fun a b => flag (a == b)) s
  | .read => m.readStep host i s
  | .write => m.writeStep host i s
  | .jumpIfTrue => m.jumpStep i false s
  | .jumpIfFalse => m.jumpStep i true s
  | .adjustBase => m.adjustStep i s
  | .halt => (.ok .halt, m, s)

/-- Executes the instruction at `ip`. -/
def step (host : Host σ) (m : Machine) (s : σ) : Except Fault Step × Machine × σ :=
  match Instruction.decode (m.memory.get m.ip.toNat) m.ip.toNat with
  | .error e => (.error e, m, s)
  | .ok i => m.execute host i s

/-- Steps until a stop, at most `fuel` instructions, and leaves the status that the stop gives. -/
def loop (host : Host σ) : Nat → Machine → σ → Option (Except Fault Outcome × Machine × σ)
  | 0, _, _ => none
  | fuel + 1, m, s =>
    match m.step host s with
    | (.ok .proceed, m, s) => loop host fuel m s
    | (.ok .suspend, m, s) => some (.ok .suspended, { m with status := .idle }, s)
    | (.ok .halt, m, s) => some (.ok .halted, { m with status := .halted }, s)
    | (.error e, m, s) => some (.error e, { m with status := .halted }, s)

/-- Runs an idle machine until its program halts, the host pauses it or a fault halts it for good. -/
def run (host : Host σ) (fuel : Nat) (m : Machine) (s : σ) :
    Option (Except Fault Outcome × Machine × σ) :=
  match m.status with
  | .halted => some (.error .alreadyHalted, m, s)
  | .running => some (.error .alreadyRunning, m, s)
  | .idle => loop host fuel { m with status := .running } s

/-- Runs through every pause until the program halts or a fault halts the machine. Each run has at
most `fuel` instructions, and there are at most `fuel` runs. -/
def runToHalt (host : Host σ) : Nat → Machine → σ → Option (Except Fault Unit × Machine × σ)
  | 0, _, _ => none
  | fuel + 1, m, s =>
    match run host (fuel + 1) m s with
    | none => none
    | some (.error e, m, s) => some (.error e, m, s)
    | some (.ok .halted, m, s) => some (.ok (), m, s)
    | some (.ok .suspended, m, s) => runToHalt host fuel m s

end Machine

end Lamcode
