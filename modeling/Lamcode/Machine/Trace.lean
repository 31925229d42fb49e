import Lamcode.Journal
import Lamcode.Machine.Run

/-!
# Lamcode.Machine.Trace — the instructions that a run executes
-/

namespace Lamcode.Machine

variable {σ : Type}

/-- The record of the instruction at `ip`; a word that does not decode leaves none. -/
def nextEvent? (m : Machine) : Option Event :=
  match Instruction.decode (m.memory.get m.ip.toNat) m.ip.toNat with
  | .error _ => none
  | .ok i =>
    some (.instruction m.ip.toNat m.base (i.render ((List.range i.opcode.arity).map m.operand)))

/-- Adds the records of at most `fuel` steps to `before`, last one first. The trace ends where a run
would, and goes on through pauses if `throughPauses`. -/
def traceOnto (host : Host σ) (throughPauses : Bool) :
    Nat → Machine → σ → List Event → List Event
  | 0, _, _, before => before
  | fuel + 1, m, s, before =>
    let seen := m.nextEvent?.toList ++ before
    match m.step host s with
    | (.ok .proceed, m, s) => traceOnto host throughPauses fuel m s seen
    | (.ok .suspend, m, s) =>
      if throughPauses then traceOnto host throughPauses fuel m s seen else seen
    | _ => seen

/-- The records of one run. -/
def trace (host : Host σ) (fuel : Nat) (m : Machine) (s : σ) : List Event :=
  if m.status = .idle then (traceOnto host false fuel m s []).reverse else []

/-- The records of a run through all pauses. -/
def traceToHalt (host : Host σ) (fuel : Nat) (m : Machine) (s : σ) : List Event :=
  if m.status = .idle then (traceOnto host true fuel m s []).reverse else []

end Lamcode.Machine
