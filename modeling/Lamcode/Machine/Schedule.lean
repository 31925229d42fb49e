import Lamcode.Machine.Trace

/-!
# Lamcode.Machine.Schedule — several machines under one script

A director hands out messages one at a time: a value that a machine is to read, or the order that a
machine is to write, whose value the director gets with its next call. One machine runs at a time.
It pauses as soon as the next message is for another machine, which is then resumed.
-/

namespace Lamcode

/-- One message of a script. -/
inductive Message where
  /-- Machine `target` is to read `value` next. -/
  | provide (target : Nat) (value : Int)
  /-- Machine `target` is to write next. -/
  | receive (target : Nat)
  deriving DecidableEq

/-- The machine that a message is for. -/
def Message.target : Message → Nat
  | .provide target _ => target
  | .receive target => target

/-- Produces a script one message at a time. `next` is given the value written for the message
before, if that message was `receive`; `none` ends the script. -/
structure Director (δ : Type) where
  next : Option Int → δ → Option Message × δ

/-- What the machines of a schedule share: the message that comes next and the director's state. -/
structure Channel (δ : Type) where
  pending : Option Message
  director : δ

namespace Channel

variable {δ : Type}

/-- Draws the next message. A machine pauses when the message is for another one. -/
def advance (d : Director δ) (machine : Nat) (received : Option Int) (c : Channel δ) :
    Flow × Channel δ :=
  match d.next received c.director with
  | (none, s) => (.proceed, ⟨none, s⟩)
  | (some message, s) =>
    (if message.target = machine then .proceed else .suspend, ⟨some message, s⟩)

/-- The host that one machine of the schedule sees. A message that does not fit is used up. -/
def host (d : Director δ) (machine : Nat) : Host (Channel δ) where
  read c :=
    match c.pending with
    | none => (.error (.scriptEnded machine), c)
    | some (.provide target value) =>
      if target = machine then
        let (flow, c) := advance d machine none c
        (.ok (value, flow), c)
      else (.error (.scriptMismatch machine .read), { c with pending := none })
    | some (.receive _) => (.error (.scriptMismatch machine .read), { c with pending := none })
  write value c :=
    match c.pending with
    | none => (.error (.scriptEnded machine), c)
    | some (.receive target) =>
      if target = machine then
        let (flow, c) := advance d machine (some value) c
        (.ok flow, c)
      else (.error (.scriptMismatch machine .write), { c with pending := none })
    | some (.provide _ _) => (.error (.scriptMismatch machine .write), { c with pending := none })

end Channel

namespace Schedule

variable {δ : Type}

/-- Resumes the machine that the pending message is for until no message is left, at most `fuel`
times and for at most `fuel` instructions each time. -/
def turns (d : Director δ) :
    Nat → List Machine → Channel δ → Option (Except Fault Unit × List Machine × Channel δ)
  | 0, _, _ => none
  | fuel + 1, machines, c =>
    match c.pending with
    | none => some (.ok (), machines, c)
    | some message =>
      let target := message.target
      match machines[target]? with
      | none => some (.error (.unknownMachine target), machines, c)
      | some m =>
        if m.status = .halted then some (.error (.haltedMachine target), machines, c)
        else
          match m.run (Channel.host d target) (fuel + 1) c with
          | none => none
          | some (.error e, m, c) => some (.error e, machines.set target m, c)
          | some (.ok _, m, c) => turns d fuel (machines.set target m) c

/-- Draws the first message from the director. -/
def openChannel (d : Director δ) (s : δ) : Channel δ :=
  let (pending, s) := d.next none s
  ⟨pending, s⟩

/-- Runs the machines until the script ends and the machine addressed last stops. -/
def run (d : Director δ) (fuel : Nat) (machines : List Machine) (s : δ) :
    Option (Except Fault Unit × List Machine × δ) :=
  (turns d fuel machines (openChannel d s)).map fun (r, ms, c) => (r, ms, c.director)

/-- The records that `turns` leaves. -/
def turnEvents (d : Director δ) : Nat → List Machine → Channel δ → List Event
  | 0, _, _ => []
  | fuel + 1, machines, c =>
    match c.pending with
    | none => []
    | some message =>
      let target := message.target
      match machines[target]? with
      | none => []
      | some m =>
        if m.status = .halted then []
        else
          let steps := m.trace (Channel.host d target) (fuel + 1) c
          .machineResumed target :: steps ++
            match m.run (Channel.host d target) (fuel + 1) c with
            | some (.ok .halted, m, c) =>
              .machineHalted target :: turnEvents d fuel (machines.set target m) c
            | some (.ok .suspended, m, c) => turnEvents d fuel (machines.set target m) c
            | _ => []

/-- The records that a run leaves. -/
def events (d : Director δ) (fuel : Nat) (machines : List Machine) (s : δ) : List Event :=
  turnEvents d fuel machines (openChannel d s)

end Schedule

/-- One line of a script that is written in advance. -/
inductive Cue where
  | message (m : Message)
  /-- Hand machine `target` the value that was just received; without one the script ends here. -/
  | forward (target : Nat)
  deriving DecidableEq

/-- A script written in advance, and what its director was handed and answered so far, last one
first. -/
structure Script where
  cues : List Cue
  drawn : List (Option Int × Option Message)

namespace Script

/-- The script of these cues. -/
def ofCues (cues : List Cue) : Script :=
  ⟨cues, []⟩

/-- The message that a cue stands for when `received` has just been received. -/
def answer (received : Option Int) : Cue → Option Message
  | .message m => some m
  | .forward target => received.map (.provide target ·)

/-- The director that follows a script, one cue per call. -/
def director : Director Script where
  next received s :=
    match s.cues with
    | [] => (none, { s with drawn := (received, none) :: s.drawn })
    | cue :: rest =>
      let m := answer received cue
      (m, ⟨rest, (received, m) :: s.drawn⟩)

/-- What the director was handed and answered, first call first. -/
def calls (s : Script) : List (Option Int × Option Message) :=
  s.drawn.reverse

end Script

end Lamcode
