import Mathlib.Logic.Relation
import Lamcode.Proofs.Machine.Suspension

/-!
# Lamcode.Proofs.Machine.Faults — no instruction is left half done

An instruction that faults has changed nothing but what it took from the host: memory and base are as they were, and so
is the address, unless it was the host that refused a written value. A run that fails has therefore the memory and the
base that its last completed instruction left, whatever pauses there were before (`Machine.Broken`). The machine has
halted for good, and what a queue had accepted by then is what it shows as its outputs. The main statement is
`Machine.faults_clean`.
-/

namespace Lamcode

variable {σ τ : Type}

/-- The host that keeps a list of the written values that it has accepted, first one first. -/
def Host.tallied (host : Host σ) : Host (σ × List Int) where
  read x := ((host.read x.1).1, (host.read x.1).2, x.2)
  write v x :=
    match host.write v x.1 with
    | (.error e, s) => (.error e, s, x.2)
    | (.ok flow, s) => (.ok flow, s, x.2 ++ [v])

namespace Machine

/-! ## One instruction -/

/-- The calls of the host that a step makes. -/
def stepCalls (host : Host σ) (m : Machine) (s : σ) : List Call :=
  (m.step host.recorded (s, [])).2.2.2

/-- The step hands a value to the host, and the host answers with the fault. -/
def Refused (host : Host σ) (m : Machine) (s : σ) (e : Fault) : Prop :=
  ∃ v, m.stepCalls host s = [.write v] ∧ (host.write v s).1 = .error e

/-- The machine after a fault is the machine before it, but that it has passed an instruction whose value was
refused. -/
structure Unharmed (host : Host σ) (m : Machine) (s : σ) (e : Fault) (m' : Machine) : Prop where
  memory : m'.memory = m.memory
  base : m'.base = m.base
  ip_of_refused : m.Refused host s e → m'.ip = m.ip + 2
  ip_of_not_refused : ¬ m.Refused host s e → m'.ip = m.ip

variable {host : Host σ} {m m' : Machine} {s s' : σ} {e : Fault}

theorem unharmed_self (h : ∀ v, m.stepCalls host s ≠ [.write v]) : m.Unharmed host s e m where
  memory := rfl
  base := rfl
  ip_of_refused := by
    rintro ⟨v, hcalls, -⟩
    exact absurd hcalls (h v)
  ip_of_not_refused _ := rfl

theorem unharmed_of_step (h : m.step host s = (.error e, m', s')) : m.Unharmed host s e m' := by
  rw [step_eq] at h
  cases hd : m.demand with
  | proceed next | halt =>
    rw [hd] at h
    cases h
  | fault e =>
    rw [hd] at h
    cases h
    refine unharmed_self fun v => ?_
    simp [stepCalls, step_eq, hd, meet]
  | read target =>
    have hcalls : ∀ v, m.stepCalls host s ≠ [.write v] := by
      intro v
      simp only [stepCalls, step_eq, hd, meet, Host.recorded]
      rcases host.read s with ⟨_ | ⟨v, flow⟩, s₁⟩
      · simp
      · cases target <;> simp
    rw [hd, meet] at h
    rcases hread : host.read s with ⟨e | ⟨v, flow⟩, s₁⟩
    · rw [hread] at h
      cases h
      exact unharmed_self hcalls
    · rw [hread] at h
      cases target <;> cases h
      exact unharmed_self hcalls
  | write v =>
    rw [hd, meet] at h
    rcases hwrite : host.write v s with ⟨e | flow, s₁⟩
    · rw [hwrite] at h
      cases h
      have hrefused : m.Refused host s e := by
        refine ⟨v, ?_, by rw [hwrite]⟩
        simp [stepCalls, step_eq, hd, meet, Host.recorded, hwrite]
      exact ⟨rfl, rfl, fun _ => rfl, fun hnot => absurd hrefused hnot⟩
    · rw [hwrite] at h
      cases h

/-! ## Runs that fail -/

/-- The instruction is executed without a fault, and the program does not halt. The host may pause the machine then. -/
def Completes (host : Host σ) (x y : Machine × σ) : Prop :=
  ∃ flow : Flow, x.1.step host x.2 = (.ok flow.toStep, y.1, y.2)

/-- A run of the machine, up to its first pause or through all pauses, ends with the fault. -/
inductive Fails (host : Host σ) (m : Machine) (s : σ) (e : Fault) (m' : Machine) (s' : σ) : Prop
  | run (fuel : Nat) (h : run host fuel m s = some (.error e, m', s'))
  | runToHalt (fuel : Nat) (h : runToHalt host fuel m s = some (.error e, m', s'))

/-- The machine went from `m` through completed instructions to one that faulted, and has halted there. -/
structure Broken (host : Host σ) (m : Machine) (s : σ) (e : Fault) (m' : Machine) (s' : σ) : Prop where
  status : m'.status = .halted
  last : ∃ x, Relation.ReflTransGen (Completes host) (m.withStatus .running, s) x ∧
    x.1.step host x.2 = (.error e, m'.withStatus .running, s') ∧ m'.memory = x.1.memory ∧ m'.base = x.1.base

theorem exists_last_of_through {fuel : Nat} (h : through host fuel m s = some (.error e, m', s')) :
    ∃ x, Relation.ReflTransGen (Completes host) (m, s) x ∧
      x.1.step host x.2 = (.error e, m'.withStatus m.status, s') ∧ m'.status = .halted := by
  induction fuel generalizing m s with
  | zero => cases h
  | succ fuel ih =>
    have hstatus := status_step host m s
    rw [through] at h
    rcases hstep : m.step host s with ⟨e | step, m₁, s₁⟩
    · rw [hstep] at h hstatus
      cases h
      refine ⟨(m, s), .refl, ?_, rfl⟩
      rw [hstep, show (m₁.withStatus .halted).withStatus m.status = m₁ from withStatus_of_status hstatus]
    · rw [hstep] at h hstatus
      -- the machine goes on with the same status, whether the host pauses it or not
      have hgo : ∀ flow : Flow, step = flow.toStep → through host fuel m₁ s₁ = some (.error e, m', s') →
          ∃ x, Relation.ReflTransGen (Completes host) (m, s) x ∧
            x.1.step host x.2 = (.error e, m'.withStatus m.status, s') ∧ m'.status = .halted := by
        rintro flow rfl hthrough
        obtain ⟨x, hreach, hx⟩ := ih hthrough
        rw [show m₁.status = m.status from hstatus] at hx
        exact ⟨x, .head ⟨flow, hstep⟩ hreach, hx⟩
      cases step with
      | halt => cases h
      | proceed => exact hgo .proceed rfl h
      | suspend => exact hgo .suspend rfl h

theorem Fails.exists_through (h : Fails host m s e m' s') (hidle : m.status = .idle) :
    ∃ fuel, through host fuel (m.withStatus .running) s = some (.error e, m', s') := by
  cases h with
  | run fuel h =>
    rw [Machine.run, hidle] at h
    exact ⟨fuel, through_of_loop h⟩
  | runToHalt fuel h => exact through_of_runToHalt hidle h

/-- A machine that has halted is not run again, and neither it nor the host changes. -/
theorem run_of_halted (host : Host σ) (fuel : Nat) (hhalted : m.status = .halted) (s : σ) :
    run host fuel m s = some (.error .alreadyHalted, m, s) := by
  rw [run, hhalted]

theorem Fails.of_halted (h : Fails host m s e m' s') (hhalted : m.status = .halted) :
    e = .alreadyHalted ∧ m' = m ∧ s' = s := by
  cases h with
  | run fuel h =>
    rw [run_of_halted host fuel hhalted] at h
    cases h
    exact ⟨rfl, rfl, rfl⟩
  | runToHalt fuel h =>
    cases fuel with
    | zero => cases h
    | succ fuel =>
      rw [Machine.runToHalt, run_of_halted host _ hhalted] at h
      cases h
      exact ⟨rfl, rfl, rfl⟩

theorem Fails.broken (h : Fails host m s e m' s') (hidle : m.status = .idle) : Broken host m s e m' s' := by
  obtain ⟨fuel, hthrough⟩ := h.exists_through hidle
  obtain ⟨x, hreach, hstep, hstatus⟩ := exists_last_of_through hthrough
  have hunharmed := unharmed_of_step hstep
  exact ⟨hstatus, x, hreach, hstep, hunharmed.memory, hunharmed.base⟩

/-! ## What a queue has accepted -/

/-- A run that fails against a host fails against every host that only forgets some of its state. -/
theorem Fails.of_extends {view : σ → τ} {other : Host τ} (hview : host.Extends view other)
    (h : Fails host m s e m' s') : Fails other m (view s) e m' (view s') := by
  cases h with
  | run fuel h => exact .run fuel (by rw [hview.run, h]; rfl)
  | runToHalt fuel h => exact .runToHalt fuel (by rw [hview.runToHalt, h]; rfl)

/-- And one that fails against such a host fails against the first one. -/
theorem Fails.exists_of_extends {view : σ → τ} {other : Host τ} {t' : τ} (hview : host.Extends view other)
    (h : Fails other m (view s) e m' t') : ∃ s', Fails host m s e m' s' ∧ view s' = t' := by
  cases h with
  | run fuel h =>
    rw [hview.run] at h
    obtain ⟨⟨_, _, s'⟩, hrun, ⟨⟩⟩ := Option.map_eq_some_iff.1 h
    exact ⟨s', .run fuel hrun, rfl⟩
  | runToHalt fuel h =>
    rw [hview.runToHalt] at h
    obtain ⟨⟨_, _, s'⟩, hrun, ⟨⟩⟩ := Option.map_eq_some_iff.1 h
    exact ⟨s', .runToHalt fuel hrun, rfl⟩

end Machine

namespace Queue

/-- A queue that had values written to it before, and the values that it has accepted since. -/
def since (before : List Int) (q : Queue) : Queue × List Int :=
  ({ q with written := q.written ++ before }, q.outputs)

theorem extends_since (before : List Int) : host.Extends (since before) host.tallied where
  read q := by
    obtain ⟨inputs, written⟩ := q
    cases inputs <;> rfl
  write v q := by
    simp [host, pausingHost, Host.tallied, since, outputs]

theorem extends_forget (before : List Int) :
    host.Extends (fun q => { q with written := q.written ++ before }) host where
  read q := by
    obtain ⟨inputs, written⟩ := q
    cases inputs <;> rfl
  write v q := rfl

/-- What a queue shows in the end is what it showed before and what it has accepted in the run. -/
theorem exists_tallied_of_fails {m m' : Machine} {q q' : Queue} {e : Fault} (h : m.Fails host q e m' q') :
    ∃ accepted, m.Fails host.tallied (q, []) e m' (q', accepted) ∧ q'.outputs = q.outputs ++ accepted := by
  -- the same run from the queue that nothing was written to yet
  obtain ⟨q₁, hfails, rfl⟩ := Machine.Fails.exists_of_extends (s := ⟨q.inputs, []⟩) (extends_forget q.written) h
  exact ⟨q₁.outputs, hfails.of_extends (extends_since q.written), by simp [outputs]⟩

end Queue

namespace Machine

/-! ## Any number of runs -/

/-- The second machine is the first one after some runs, each against a host of its own. -/
inductive Driven : Machine → Machine → Prop
  | refl (m : Machine) : Driven m m
  | run {m m₁ m' : Machine} {σ : Type} (host : Host σ) (fuel : Nat) (s : σ) (r : Except Fault Outcome × Machine × σ)
    (h : run host fuel m s = some r) (hm₁ : r.2.1 = m₁) (k : Driven m₁ m') : Driven m m'
  | runToHalt {m m₁ m' : Machine} {σ : Type} (host : Host σ) (fuel : Nat) (s : σ)
    (r : Except Fault Unit × Machine × σ) (h : runToHalt host fuel m s = some r) (hm₁ : r.2.1 = m₁)
    (k : Driven m₁ m') : Driven m m'

variable {host : Host σ} {m m' : Machine} {s : σ}

theorem status_of_loop {fuel : Nat} {r : Except Fault Outcome × Machine × σ} (h : loop host fuel m s = some r) :
    r.2.1.status ≠ .running := by
  induction fuel generalizing m s with
  | zero => cases h
  | succ fuel ih =>
    rw [loop] at h
    rcases hstep : m.step host s with ⟨e | step, m₁, s₁⟩
    · rw [hstep] at h
      cases h
      exact Status.noConfusion
    · rw [hstep] at h
      cases step with
      | proceed => exact ih h
      | suspend | halt =>
        cases h
        exact Status.noConfusion

theorem status_of_run {fuel : Nat} {r : Except Fault Outcome × Machine × σ} (hm : m.status ≠ .running)
    (h : run host fuel m s = some r) : r.2.1.status ≠ .running := by
  unfold run at h
  cases hstatus : m.status with
  | running => exact absurd hstatus hm
  | halted =>
    rw [hstatus] at h
    cases h
    exact hm
  | idle =>
    rw [hstatus] at h
    exact status_of_loop h

theorem status_of_runToHalt {fuel : Nat} {r : Except Fault Unit × Machine × σ} (hm : m.status ≠ .running)
    (h : runToHalt host fuel m s = some r) : r.2.1.status ≠ .running := by
  induction fuel generalizing m s with
  | zero => cases h
  | succ fuel ih =>
    rw [runToHalt] at h
    rcases hrun : run host (fuel + 1) m s with _ | ⟨_ | outcome, m₁, s₁⟩
    · rw [hrun] at h
      cases h
    · rw [hrun] at h
      cases h
      exact status_of_run hm hrun
    · rw [hrun] at h
      cases outcome with
      | halted =>
        cases h
        exact status_of_run hm hrun
      | suspended => exact ih (status_of_run hm hrun) h

theorem Driven.status (h : Driven m m') (hm : m.status ≠ .running) : m'.status ≠ .running := by
  induction h with
  | refl m => exact hm
  | run host fuel s r hrun hm₁ _ ih => exact ih (hm₁ ▸ status_of_run hm hrun)
  | runToHalt host fuel s r hrun hm₁ _ ih => exact ih (hm₁ ▸ status_of_runToHalt hm hrun)

/-- Faults are clean. A step that faults leaves memory and base alone, and the address too unless the host refused a
value. A run of an idle machine that fails has the memory and the base of its last completed instruction and has halted
the machine, which no later run changes; one of a halted machine fails at once. What a queue accepted before the fault
is what it has to show. Between runs, a machine is idle or has halted. -/
theorem faults_clean (host : Host σ) :
    (∀ m s e m' s', m.step host s = (.error e, m', s') → Unharmed host m s e m') ∧
      (∀ m s e m' s', Fails host m s e m' s' →
        (m.status = .idle → Broken host m s e m' s') ∧
          (m.status = .halted → e = .alreadyHalted ∧ m' = m ∧ s' = s) ∧
          (m.status ≠ .running → ∀ {τ : Type} (other : Host τ) (fuel : Nat) (t : τ),
            run other fuel m' t = some (.error .alreadyHalted, m', t))) ∧
      (∀ m q e m' q', Fails Queue.host m q e m' q' →
        ∃ accepted, Fails Queue.host.tallied m (q, []) e m' (q', accepted) ∧ q'.outputs = q.outputs ++ accepted) ∧
      ∀ m m', Driven m m' → m.status ≠ .running → m'.status = .idle ∨ m'.status = .halted := by
  refine ⟨fun _ _ _ _ _ => unharmed_of_step, fun m s e m' s' h => ⟨h.broken, h.of_halted, fun hm τ other fuel t => ?_⟩,
    fun _ _ _ _ _ => Queue.exists_tallied_of_fails, fun m m' h hm => ?_⟩
  · refine run_of_halted other fuel ?_ t
    cases hstatus : m.status with
    | running => exact absurd hstatus hm
    | idle => exact (h.broken hstatus).status
    | halted =>
      obtain ⟨-, rfl, -⟩ := h.of_halted hstatus
      exact hstatus
  · have hdriven := h.status hm
    cases hstatus : m'.status with
    | idle => exact .inl rfl
    | halted => exact .inr rfl
    | running => exact absurd hstatus hdriven

/-- Writes a number and then stores through an address that there is none of. -/
def misdirected : Machine :=
  .ofWords [104, 7, 1101, 1, 1, -1]

/-- One host takes the number, so that the machine fails at the second instruction; the other one refuses it. -/
theorem faults_clean_misdirected :
    (∃ m' q', Fails Queue.host misdirected (.ofInputs []) (.negativeAddress (-1)) m' q' ∧
      Broken Queue.host misdirected (.ofInputs []) (.negativeAddress (-1)) m' q' ∧ m'.ip = 2 ∧ q'.outputs = [7] ∧
      (∃ accepted, Fails Queue.host.tallied misdirected (.ofInputs [], []) (.negativeAddress (-1)) m' (q', accepted) ∧
        q'.outputs = [] ++ accepted) ∧
      (∀ fuel q, run Queue.host fuel m' q = some (.error .alreadyHalted, m', q)) ∧
      (Driven misdirected m' ∧ (m'.status = .idle ∨ m'.status = .halted))) ∧
    ∃ m', misdirected.step Host.silent () = (.error .noInput, m', ()) ∧
      Unharmed Host.silent misdirected () .noInput m' := by
  constructor
  · have h : (runToHalt Queue.host 2 misdirected (.ofInputs [])).any (fun r =>
        decide (error? r.1 = some (.negativeAddress (-1)) ∧ r.2.1.ip = 2 ∧ r.2.2.outputs = [7])) = true := by
      decide +kernel
    obtain ⟨⟨r, m', q'⟩, hrun, h⟩ := (Option.any_eq_true _ _).1 h
    obtain ⟨hr, hip, houtputs⟩ := of_decide_eq_true h
    obtain rfl := eq_error_of_error? hr
    have hfails : Fails Queue.host misdirected (.ofInputs []) (.negativeAddress (-1)) m' q' := .runToHalt 2 hrun
    have hdriven : Driven misdirected m' := .runToHalt Queue.host 2 _ _ hrun rfl (.refl m')
    obtain ⟨-, hbroken, htallied, hstatus⟩ := faults_clean Queue.host
    obtain ⟨hidle, -, hlater⟩ := hbroken _ _ _ _ _ hfails
    exact ⟨m', q', hfails, hidle rfl, hip, houtputs, htallied _ _ _ _ _ hfails, hlater (by decide) Queue.host,
      hdriven, hstatus _ _ hdriven (by decide)⟩
  · have h : error? (misdirected.step Host.silent ()).1 = some .noInput := by decide +kernel
    rcases hstep : misdirected.step Host.silent () with ⟨r, m', ⟨⟩⟩
    rw [hstep] at h
    obtain rfl := eq_error_of_error? h
    exact ⟨m', rfl, (faults_clean Host.silent).1 _ _ _ _ _ hstep⟩

end Machine

end Lamcode
