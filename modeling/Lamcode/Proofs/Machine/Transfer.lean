import Lamcode.Machine.Run

/-!
# Lamcode.Proofs.Machine.Transfer — what a machine does, and what it leaves to its host

A step depends on the host in two places only: the value that is read, and whether a value that is written is
accepted. `Machine.demand` says what a machine is about to do before any host is asked, and `Machine.step_eq` that a
step is the demand together with the host's answer. The host's wish to pause never shows in the machine.

`Machine.Transfers m ts m'` forgets hosts altogether: the machine `m` can read and write the values `ts`, in this
order, and is then at `m'`. Every step that goes on is one of its rules, so what a machine did on one host it can be
shown to do on another that gives the same values.
-/

namespace Lamcode

/-- What a machine is about to do. -/
inductive Demand where
  /-- Goes on without the host. -/
  | proceed (next : Machine)
  | halt
  | fault (e : Fault)
  /-- Takes a value from the host and stores it through the operand, if that is an address. -/
  | read (target : Except Fault Nat)
  /-- Hands a value to the host. -/
  | write (value : Int)

/-- A value that has passed between a machine and its host. -/
inductive Transfer where
  | input (value : Int)
  | output (value : Int)
  deriving DecidableEq

/-- The host of instructions that need none. -/
def Host.silent : Host Unit where
  read s := (.error .noInput, s)
  write _ s := (.error .noInput, s)

namespace Machine

variable {σ : Type}

/-- The machine with another status. -/
def withStatus (m : Machine) (status : Status) : Machine :=
  { m with status }

/-- The machine once it has read `v` into the word at `dest`. -/
def stored (m : Machine) (dest : Nat) (v : Int) : Machine :=
  { m with memory := m.memory.set dest v, ip := m.ip + 2 }

/-- The machine once it has passed a write. -/
def passed (m : Machine) : Machine :=
  { m with ip := m.ip + 2 }

/-- What a machine does with the result of an instruction that needs no host. -/
def ofResult : Except Fault Step × Machine × Unit → Demand
  | (.error e, _, _) => .fault e
  | (.ok .halt, _, _) => .halt
  | (.ok _, m, _) => .proceed m

/-- What the machine is about to do. -/
def demand (m : Machine) : Demand :=
  match Instruction.decode (m.memory.get m.ip.toNat) m.ip.toNat with
  | .error e => .fault e
  | .ok i =>
    match i.opcode with
    | .read => .read (m.target i 0)
    | .write =>
      match m.load i 0 with
      | .error e => .fault e
      | .ok v => .write v
    | _ => ofResult (m.execute Host.silent i ())

/-- What becomes of a demand that the host has answered. -/
def meet (host : Host σ) (m : Machine) (s : σ) : Demand → Except Fault Step × Machine × σ
  | .proceed next => (.ok .proceed, next, s)
  | .halt => (.ok .halt, m, s)
  | .fault e => (.error e, m, s)
  | .read target =>
    match host.read s with
    | (.error e, s) => (.error e, m, s)
    | (.ok (v, flow), s) =>
      match target with
      | .error e => (.error e, m, s)
      | .ok dest => (.ok flow.toStep, m.stored dest v, s)
  | .write v =>
    match host.write v s with
    | (.error e, s) => (.error e, m.passed, s)
    | (.ok flow, s) => (.ok flow.toStep, m.passed, s)

theorem binary_eq (m : Machine) (i : Instruction) (f : Int → Int → Int) (host : Host σ) (s : σ) :
    m.binary i f s = m.meet host s (ofResult (m.binary i f ())) := by
  unfold binary
  cases m.binaryOperands i <;> rfl

theorem adjustStep_eq (m : Machine) (i : Instruction) (host : Host σ) (s : σ) :
    m.adjustStep i s = m.meet host s (ofResult (m.adjustStep i ())) := by
  unfold adjustStep
  cases m.load i 0 <;> rfl

theorem jumpStep_eq (m : Machine) (i : Instruction) (onZero : Bool) (host : Host σ) (s : σ) :
    m.jumpStep i onZero s = m.meet host s (ofResult (m.jumpStep i onZero ())) := by
  unfold jumpStep
  cases m.load i 0 with
  | error e => rfl
  | ok cond =>
    cases m.load i 1 with
    | error e => rfl
    | ok dest =>
      by_cases htaken : ((cond == 0) == onZero) = true
      · simp only [htaken, if_true]
        cases Memory.address dest <;> rfl
      · simp only [htaken]
        rfl

/-- A step is what the machine demands, met by the host. -/
theorem step_eq (host : Host σ) (m : Machine) (s : σ) : m.step host s = m.meet host s m.demand := by
  unfold step demand
  cases Instruction.decode (m.memory.get m.ip.toNat) m.ip.toNat with
  | error e => rfl
  | ok i =>
    obtain ⟨op, modes⟩ := i
    -- only a read and a write look at the host
    cases op with
    | read => rfl
    | write =>
      simp only [execute, writeStep]
      cases m.load ⟨.write, modes⟩ 0 <;> rfl
    | add | multiply | lessThan | equals => exact binary_eq ..
    | jumpIfTrue | jumpIfFalse => exact jumpStep_eq ..
    | adjustBase => exact adjustStep_eq ..
    | halt => rfl

/-- A machine that goes on keeps its status. -/
theorem status_of_demand {m next : Machine} (h : m.demand = .proceed next) : next.status = m.status := by
  unfold demand at h
  cases hi : Instruction.decode (m.memory.get m.ip.toNat) m.ip.toNat with
  | error e =>
    rw [hi] at h
    cases h
  | ok i =>
    obtain ⟨op, modes⟩ := i
    rw [hi] at h
    cases op with
    | read => cases h
    | write =>
      simp only at h
      cases hv : m.load ⟨.write, modes⟩ 0 <;> rw [hv] at h <;> cases h
    | halt => cases h
    | add | multiply | lessThan | equals =>
      simp only [execute, binary] at h
      cases ho : m.binaryOperands _ <;> rw [ho] at h <;> cases h
      rfl
    | jumpIfTrue | jumpIfFalse =>
      simp only [execute, jumpStep] at h
      cases hc : m.load _ 0 with
      | error e =>
        rw [hc] at h
        cases h
      | ok cond =>
        cases hd : m.load _ 1 with
        | error e =>
          rw [hc, hd] at h
          cases h
        | ok dest =>
          rw [hc, hd] at h
          simp only at h
          split at h
          · cases ha : Memory.address dest <;> rw [ha] at h <;> cases h
            rfl
          · cases h
            rfl
    | adjustBase =>
      simp only [execute, adjustStep] at h
      cases hv : m.load _ 0 <;> rw [hv] at h <;> cases h
      rfl

@[simp] theorem status_stored (m : Machine) (dest : Nat) (v : Int) : (m.stored dest v).status = m.status := rfl

@[simp] theorem status_passed (m : Machine) : m.passed.status = m.status := rfl

theorem withStatus_of_status {m : Machine} {status : Status} (h : m.status = status) :
    m.withStatus status = m := by
  subst h
  rfl

/-- A step leaves the status as it is; only a run sets it. -/
theorem status_step (host : Host σ) (m : Machine) (s : σ) : (m.step host s).2.1.status = m.status := by
  rw [step_eq]
  cases hd : m.demand with
  | proceed next => exact status_of_demand hd
  | halt | fault e => rfl
  | read target =>
    simp only [meet]
    rcases host.read s with ⟨_ | ⟨v, flow⟩, s'⟩
    · rfl
    · cases target <;> rfl
  | write v =>
    simp only [meet]
    rcases host.write v s with ⟨_ | flow, s'⟩ <;> rfl

/-! ### Exchanges without a host -/

/-- The machine reads or writes a value and goes on behind the instruction. -/
inductive Exchanges (m : Machine) : Transfer → Machine → Prop
  | input {dest : Nat} (h : m.demand = .read (.ok dest)) (v : Int) : Exchanges m (.input v) (m.stored dest v)
  | output {v : Int} (h : m.demand = .write v) : Exchanges m (.output v) m.passed

/-- The machine can make these exchanges, in this order, and is then at the second one. -/
inductive Transfers : Machine → List Transfer → Machine → Prop
  | refl (m : Machine) : Transfers m [] m
  | proceed {m next m' : Machine} {ts : List Transfer} (h : m.demand = .proceed next) (k : Transfers next ts m') :
    Transfers m ts m'
  | exchange {m next m' : Machine} {t : Transfer} {ts : List Transfer} (h : m.Exchanges t next)
    (k : Transfers next ts m') : Transfers m (t :: ts) m'

theorem Exchanges.status {m m' : Machine} {t : Transfer} (h : m.Exchanges t m') : m'.status = m.status := by
  cases h <;> rfl

theorem Transfers.status {m m' : Machine} {ts : List Transfer} (h : Transfers m ts m') :
    m'.status = m.status := by
  induction h with
  | refl m => rfl
  | proceed hd k ih => exact ih.trans (status_of_demand hd)
  | exchange hx k ih => exact ih.trans hx.status

theorem Transfers.trans {m m₁ m' : Machine} {ts us : List Transfer} (h : Transfers m ts m₁)
    (k : Transfers m₁ us m') : Transfers m (ts ++ us) m' := by
  induction h with
  | refl m => exact k
  | proceed hd _ ih => exact .proceed hd (ih k)
  | exchange hx _ ih => exact .exchange hx (ih k)

end Machine

/-! ## One host inside another -/

variable {σ τ : Type}

/-- A host that answers as `other` does and keeps more in its state than that one. -/
structure Host.Extends (host : Host σ) (view : σ → τ) (other : Host τ) : Prop where
  read : ∀ s, other.read (view s) = ((host.read s).1, view (host.read s).2)
  write : ∀ v s, other.write v (view s) = ((host.write v s).1, view (host.write v s).2)

namespace Host.Extends

variable {host : Host σ} {view : σ → τ} {other : Host τ}

theorem step (h : host.Extends view other) (m : Machine) (s : σ) :
    m.step other (view s) = ((m.step host s).1, (m.step host s).2.1, view (m.step host s).2.2) := by
  rw [Machine.step_eq, Machine.step_eq]
  cases m.demand with
  | proceed next | halt | fault e => rfl
  | read target =>
    simp only [Machine.meet, h.read]
    rcases host.read s with ⟨_ | ⟨v, flow⟩, s'⟩
    · rfl
    · cases target <;> rfl
  | write v =>
    simp only [Machine.meet, h.write]
    rcases host.write v s with ⟨_ | flow, s'⟩ <;> rfl

/-- What is forgotten of a host's state is forgotten of the result of a run. -/
theorem loop (h : host.Extends view other) (fuel : Nat) (m : Machine) (s : σ) :
    Machine.loop other fuel m (view s) =
      (Machine.loop host fuel m s).map fun (r, m', s') => (r, m', view s') := by
  induction fuel generalizing m s with
  | zero => rfl
  | succ fuel ih =>
    rw [Machine.loop, Machine.loop, h.step]
    rcases m.step host s with ⟨_ | step, m', s'⟩
    · rfl
    · cases step with
      | proceed => exact ih m' s'
      | suspend | halt => rfl

theorem run (h : host.Extends view other) (fuel : Nat) (m : Machine) (s : σ) :
    m.run other fuel (view s) = (m.run host fuel s).map fun (r, m', s') => (r, m', view s') := by
  unfold Machine.run
  cases m.status with
  | halted | running => rfl
  | idle => exact h.loop fuel _ s

theorem runToHalt (h : host.Extends view other) (fuel : Nat) (m : Machine) (s : σ) :
    m.runToHalt other fuel (view s) =
      (m.runToHalt host fuel s).map fun (r, m', s') => (r, m', view s') := by
  induction fuel generalizing m s with
  | zero => rfl
  | succ fuel ih =>
    rw [Machine.runToHalt, Machine.runToHalt, h.run]
    rcases m.run host (fuel + 1) s with _ | ⟨_ | outcome, m', s'⟩
    · rfl
    · rfl
    · cases outcome with
      | halted => rfl
      | suspended => exact ih m' s'

end Host.Extends

end Lamcode
