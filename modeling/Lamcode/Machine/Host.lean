import Lamcode.Machine.Fault

/-!
# Lamcode.Machine.Host — what a machine reads from and writes to

A host is a pair of functions on a state of its own. Both hand the state back also when they fail,
because a host that has refused one exchange may still be asked for what it had accepted before.
-/

namespace Lamcode

/-- Whether a machine goes on after an exchange or pauses in front of its next instruction. -/
inductive Flow where
  | proceed
  | suspend
  deriving DecidableEq

/-- The two exchanges of a host with state `σ`. -/
structure Host (σ : Type) where
  read : σ → Except Fault (Int × Flow) × σ
  write : Int → σ → Except Fault Flow × σ

/-- A list of values to read, in order, and the values written so far, last one first. -/
structure Queue where
  inputs : List Int
  written : List Int
  deriving DecidableEq

namespace Queue

/-- The queue with these values to read and nothing written. -/
def ofInputs (inputs : List Int) : Queue :=
  ⟨inputs, []⟩

/-- The values written, first one first. -/
def outputs (q : Queue) : List Int :=
  q.written.reverse

/-- The queue with one more value to read, behind all others. -/
def push (q : Queue) (v : Int) : Queue :=
  { q with inputs := q.inputs ++ [v] }

/-- A host over a queue that pauses the machine after reads and writes as told. -/
def pausingHost (afterRead afterWrite : Flow) : Host Queue where
  read q :=
    match q.inputs with
    | [] => (.error .noInput, q)
    | v :: rest => (.ok (v, afterRead), { q with inputs := rest })
  write v q := (.ok afterWrite, { q with written := v :: q.written })

/-- The host that feeds a queue's values and collects what is written. It never pauses a machine. -/
def host : Host Queue :=
  pausingHost .proceed .proceed

end Queue

end Lamcode
