import Lamcode.Proofs.Machine.Transfer
import Lamcode.Proofs.Result

/-!
# Lamcode.Proofs.Machine.Suspension — pauses leave no trace

A host may pause a machine after every exchange, and `Machine.runToHalt` resumes it each time. Two hosts that give the
same answers to the same calls and differ only in when they pause are indistinguishable to a machine: it ends against
both or against neither, in the same way and in the same state, and it has made the same calls (`ends_iff_of_alike`).

The proof goes through `Machine.through`, a run that does not stop at pauses at all.
-/

namespace Lamcode

variable {σ τ : Type}

/-! ## Calls and answers -/

/-- One call of a host: for a value, or with a value. -/
inductive Call where
  | read
  | write (v : Int)
  deriving DecidableEq

namespace Host

/-- What a host answers to a call: the value that is read, if any, or a fault. Whether it also pauses the machine is
left out. -/
def ask (host : Host σ) : Call → σ → Except Fault (Option Int) × σ
  | .read, s =>
    match host.read s with
    | (.error e, s) => (.error e, s)
    | (.ok (v, _), s) => (.ok (some v), s)
  | .write v, s =>
    match host.write v s with
    | (.error e, s) => (.error e, s)
    | (.ok _, s) => (.ok none, s)

/-- What a host answers to calls, one after the other. -/
def answers (host : Host σ) : List Call → σ → List (Except Fault (Option Int))
  | [], _ => []
  | c :: rest, s => (host.ask c s).1 :: host.answers rest (host.ask c s).2

/-- The two hosts answer every sequence of calls alike. -/
def Alike (host : Host σ) (s : σ) (other : Host τ) (t : τ) : Prop :=
  ∀ calls, host.answers calls s = other.answers calls t

theorem Alike.ask {host : Host σ} {s : σ} {other : Host τ} {t : τ} (h : host.Alike s other t) (c : Call) :
    (host.ask c s).1 = (other.ask c t).1 ∧ host.Alike (host.ask c s).2 other (other.ask c t).2 := by
  constructor
  · exact (List.cons.inj (h [c])).1
  · intro calls
    exact (List.cons.inj (h (c :: calls))).2

/-- The host that keeps a record of its calls, first one first. -/
def recorded (host : Host σ) : Host (σ × List Call) where
  read x := ((host.read x.1).1, (host.read x.1).2, x.2 ++ [.read])
  write v x := ((host.write v x.1).1, (host.write v x.1).2, x.2 ++ [.write v])

theorem recorded_extends (host : Host σ) : host.recorded.Extends Prod.fst host :=
  ⟨fun _ => rfl, fun _ _ => rfl⟩

end Host

namespace Machine

/-! ## Running through pauses -/

/-- Steps until the program halts or a fault occurs, at most `fuel` instructions, as if the host never paused the
machine. -/
def through (host : Host σ) : Nat → Machine → σ → Option (Except Fault Unit × Machine × σ)
  | 0, _, _ => none
  | fuel + 1, m, s =>
    match m.step host s with
    | (.error e, m, s) => some (.error e, m.withStatus .halted, s)
    | (.ok .halt, m, s) => some (.ok (), m.withStatus .halted, s)
    | (.ok _, m, s) => through host fuel m s

variable {host : Host σ} {m m' : Machine} {s s' : σ} {fuel : Nat}

theorem through_add {r : Except Fault Unit × Machine × σ} (h : through host fuel m s = some r) (k : Nat) :
    through host (fuel + k) m s = some r := by
  induction fuel generalizing m s with
  | zero => cases h
  | succ fuel ih =>
    rw [Nat.add_right_comm, through]
    rw [through] at h
    rcases hstep : m.step host s with ⟨_ | step, m₁, s₁⟩
    · rw [hstep] at h
      exact h
    · rw [hstep] at h
      cases step with
      | halt => exact h
      | proceed | suspend => exact ih h

theorem loop_add {r : Except Fault Outcome × Machine × σ} (h : loop host fuel m s = some r) (k : Nat) :
    loop host (fuel + k) m s = some r := by
  induction fuel generalizing m s with
  | zero => cases h
  | succ fuel ih =>
    rw [Nat.add_right_comm, loop]
    rw [loop] at h
    rcases hstep : m.step host s with ⟨_ | step, m₁, s₁⟩
    · rw [hstep] at h
      exact h
    · rw [hstep] at h
      cases step with
      | halt | suspend => exact h
      | proceed => exact ih h

theorem run_add {r : Except Fault Outcome × Machine × σ} (h : run host fuel m s = some r) (k : Nat) :
    run host (fuel + k) m s = some r := by
  unfold run at h ⊢
  cases hm : m.status with
  | halted | running =>
    rw [hm] at h
    exact h
  | idle =>
    rw [hm] at h
    exact loop_add h k

/-- A bound that is large enough stays large enough. -/
theorem runToHalt_add {r : Except Fault Unit × Machine × σ} (h : runToHalt host fuel m s = some r) (k : Nat) :
    runToHalt host (fuel + k) m s = some r := by
  induction fuel generalizing m s with
  | zero => cases h
  | succ fuel ih =>
    rw [Nat.add_right_comm, runToHalt]
    rw [runToHalt] at h
    rcases hrun : run host (fuel + 1) m s with _ | ⟨_ | outcome, m₁, s₁⟩
    · rw [hrun] at h
      cases h
    · rw [hrun] at h
      rw [Nat.add_right_comm, run_add hrun]
      exact h
    · rw [hrun] at h
      rw [Nat.add_right_comm, run_add hrun]
      cases outcome with
      | halted => exact h
      | suspended => exact ih h

/-- A loop that ends has ended for good, or it has only come to a pause. -/
theorem through_of_loop {r : Except Fault Outcome} (h : loop host fuel m s = some (r, m', s')) :
    match r with
    | .error e => through host fuel m s = some (.error e, m', s')
    | .ok .halted => through host fuel m s = some (.ok (), m', s')
    | .ok .suspended => m' = (m'.withStatus m.status).withStatus .idle ∧
      ∀ k x, through host k (m'.withStatus m.status) s' = some x → through host (fuel + k) m s = some x := by
  induction fuel generalizing m s with
  | zero => cases h
  | succ fuel ih =>
    rw [loop] at h
    have hstatus := status_step host m s
    rcases hstep : m.step host s with ⟨e | step, m₁, s₁⟩
    · rw [hstep] at h
      cases h
      simp only [through, hstep]
      rfl
    · rw [hstep] at h hstatus
      cases step with
      | halt =>
        cases h
        simp only [through, hstep]
        rfl
      | suspend =>
        cases h
        refine ⟨rfl, fun k x hx => ?_⟩
        rw [Nat.add_right_comm, through, hstep]
        have hback : (m₁.withStatus .idle).withStatus m.status = m₁ := withStatus_of_status hstatus
        exact Nat.add_comm fuel k ▸ through_add (hback ▸ hx) fuel
      | proceed =>
        have hind := ih h
        rw [show m₁.status = m.status from hstatus] at hind
        cases r with
        | error e =>
          rw [through, hstep]
          exact hind
        | ok outcome =>
          cases outcome with
          | halted =>
            rw [through, hstep]
            exact hind
          | suspended =>
            refine ⟨hind.1, fun k x hx => ?_⟩
            rw [Nat.add_right_comm, through, hstep]
            exact hind.2 k x hx

theorem through_of_runToHalt {r : Except Fault Unit × Machine × σ} (hidle : m.status = .idle)
    (h : runToHalt host fuel m s = some r) : ∃ n, through host n (m.withStatus .running) s = some r := by
  induction fuel generalizing m s with
  | zero => cases h
  | succ fuel ih =>
    rw [runToHalt, run, hidle] at h
    rcases hloop : loop host (fuel + 1) { m with status := .running } s with _ | ⟨e | outcome, m₁, s₁⟩
    · simp only [hloop] at h
      cases h
    · simp only [hloop] at h
      cases h
      exact ⟨fuel + 1, through_of_loop hloop⟩
    · simp only [hloop] at h
      cases outcome with
      | halted =>
        cases h
        exact ⟨fuel + 1, through_of_loop hloop⟩
      | suspended =>
        obtain ⟨hm₁, hgo⟩ := through_of_loop hloop
        have hpaused : m₁.status = .idle := by
          rw [hm₁]
          rfl
        obtain ⟨n, hn⟩ := ih hpaused h
        exact ⟨fuel + 1 + n, hgo n r hn⟩

/-- An idle machine that is run is set going. -/
theorem run_withStatus_idle (host : Host σ) (fuel : Nat) (hrunning : m.status = .running) (s : σ) :
    run host fuel (m.withStatus .idle) s = loop host fuel m s := by
  have hresumed : (m.withStatus .idle).withStatus .running = m := withStatus_of_status hrunning
  change loop host fuel ((m.withStatus .idle).withStatus .running) s = _
  rw [hresumed]

theorem runToHalt_of_through {r : Except Fault Unit × Machine × σ} (hrunning : m.status = .running)
    (h : through host fuel m s = some r) : ∃ n, runToHalt host n (m.withStatus .idle) s = some r := by
  induction fuel generalizing m s with
  | zero => cases h
  | succ fuel ih =>
    have hstatus := status_step host m s
    rw [through] at h
    rcases hstep : m.step host s with ⟨e | step, m₁, s₁⟩
    · rw [hstep] at h
      refine ⟨1, ?_⟩
      rw [runToHalt, run_withStatus_idle host _ hrunning, loop, hstep]
      exact h
    · rw [hstep] at h hstatus
      have hrunning₁ : m₁.status = .running := hstatus.trans hrunning
      cases step with
      | halt =>
        refine ⟨1, ?_⟩
        rw [runToHalt, run_withStatus_idle host _ hrunning, loop, hstep]
        exact h
      | suspend =>
        obtain ⟨n, hn⟩ := ih hrunning₁ h
        refine ⟨n + 1, ?_⟩
        rw [runToHalt, run_withStatus_idle host _ hrunning, loop, hstep]
        exact hn
      | proceed =>
        obtain ⟨n, hn⟩ := ih hrunning₁ h
        -- the first run is one instruction longer; what follows it has the same bound or a larger one
        cases n with
        | zero => cases hn
        | succ n =>
          refine ⟨n + 1 + 1, ?_⟩
          rw [runToHalt, run_withStatus_idle host _ hrunning₁] at hn
          rw [runToHalt, run_withStatus_idle host _ hrunning, loop, hstep]
          dsimp only
          rcases hloop : loop host (n + 1) m₁ s₁ with _ | ⟨e | outcome, m₂, s₂⟩
          · rw [hloop] at hn
            exact hn
          · rw [hloop] at hn
            exact hn
          · rw [hloop] at hn
            cases outcome with
            | halted => exact hn
            | suspended => exact runToHalt_add hn 1

/-! ## Two hosts -/

/-- Against hosts that answer alike, running through pauses comes to the same end after the same calls. -/
theorem through_of_alike {other : Host τ} {t : τ} {log log' : List Call} {r : Except Fault Unit}
    (halike : host.Alike s other t)
    (h : through host.recorded fuel m (s, log) = some (r, m', s', log')) :
    ∃ t', through other.recorded fuel m (t, log) = some (r, m', t', log') := by
  induction fuel generalizing m s t log with
  | zero => cases h
  | succ fuel ih =>
    rw [through, step_eq] at h ⊢
    cases hd : m.demand with
    | proceed next =>
      rw [hd] at h
      exact ih halike h
    | halt | fault e =>
      rw [hd] at h
      cases h
      exact ⟨t, rfl⟩
    | read target =>
      rw [hd] at h
      obtain ⟨hanswer, hnext⟩ := halike.ask .read
      simp only [Host.ask] at hanswer hnext
      simp only [meet, Host.recorded] at h ⊢
      rcases hs : host.read s with ⟨e | ⟨v, flow⟩, s₁⟩ <;>
        rcases ht : other.read t with ⟨e' | ⟨v', flow'⟩, t₁⟩ <;>
        simp only [hs, ht] at hanswer hnext h ⊢ <;> cases hanswer
      · cases h
        exact ⟨t₁, rfl⟩
      · -- the value is the same; where it goes does not depend on the host
        cases target with
        | error e =>
          cases h
          exact ⟨t₁, rfl⟩
        | ok dest =>
          have hgo : through host.recorded fuel (m.stored dest v) (s₁, log ++ [.read]) =
              some (r, m', s', log') := by cases flow <;> exact h
          obtain ⟨t', ht'⟩ := ih hnext hgo
          refine ⟨t', ?_⟩
          cases flow' <;> exact ht'
    | write v =>
      rw [hd] at h
      obtain ⟨hanswer, hnext⟩ := halike.ask (.write v)
      simp only [Host.ask] at hanswer hnext
      simp only [meet, Host.recorded] at h ⊢
      rcases hs : host.write v s with ⟨e | flow, s₁⟩ <;>
        rcases ht : other.write v t with ⟨e' | flow', t₁⟩ <;>
        simp only [hs, ht] at hanswer hnext h ⊢ <;> cases hanswer
      · cases h
        exact ⟨t₁, rfl⟩
      · have hgo : through host.recorded fuel m.passed (s₁, log ++ [.write v]) =
            some (r, m', s', log') := by cases flow <;> exact h
        obtain ⟨t', ht'⟩ := ih hnext hgo
        refine ⟨t', ?_⟩
        cases flow' <;> exact ht'

/-- Run through all pauses, the machine comes to an end: with the result `r`, as the machine `m'`, and after the
calls `calls`. -/
def Ends (host : Host σ) (m : Machine) (s : σ) (r : Except Fault Unit) (m' : Machine) (calls : List Call) :
    Prop :=
  ∃ fuel s', runToHalt host fuel m s = some (r, m', s') ∧
    runToHalt host.recorded fuel m (s, []) = some (r, m', s', calls)

/-- Whatever comes to an end has made some calls. -/
theorem exists_ends {r : Except Fault Unit} (h : runToHalt host fuel m s = some (r, m', s')) :
    ∃ calls, Ends host m s r m' calls := by
  have hview := host.recorded_extends.runToHalt fuel m (s, [])
  rw [h] at hview
  obtain ⟨⟨r₁, m₁, s₁, calls⟩, hrecorded, heq⟩ := Option.map_eq_some_iff.1 hview.symm
  cases heq
  exact ⟨calls, fuel, s₁, h, hrecorded⟩

theorem ends_iff {r : Except Fault Unit} {calls : List Call} :
    Ends host m s r m' calls ↔
      ∃ fuel s', runToHalt host.recorded fuel m (s, []) = some (r, m', s', calls) := by
  constructor
  · rintro ⟨fuel, s', -, h⟩
    exact ⟨fuel, s', h⟩
  · rintro ⟨fuel, s', h⟩
    have hview := host.recorded_extends.runToHalt fuel m (s, [])
    rw [h] at hview
    exact ⟨fuel, s', hview, h⟩

theorem Ends.of_alike {other : Host τ} {t : τ} {r : Except Fault Unit} {calls : List Call}
    (halike : host.Alike s other t) (h : Ends host m s r m' calls) : Ends other m t r m' calls := by
  obtain ⟨fuel, s', hrun⟩ := ends_iff.1 h
  rw [ends_iff]
  cases hm : m.status with
  | idle =>
    obtain ⟨n, hn⟩ := through_of_runToHalt hm hrun
    obtain ⟨t', ht'⟩ := through_of_alike halike hn
    obtain ⟨n', hn'⟩ := runToHalt_of_through rfl ht'
    have hback : (m.withStatus .running).withStatus .idle = m := withStatus_of_status hm
    rw [hback] at hn'
    exact ⟨n', t', hn'⟩
  | halted | running =>
    -- such a machine is not run at all
    cases fuel with
    | zero => cases hrun
    | succ fuel =>
      rw [runToHalt, run, hm] at hrun
      cases hrun
      refine ⟨1, t, ?_⟩
      rw [runToHalt, run, hm]

/-- Pauses leave no trace: against two hosts that answer alike and pause as they like, a machine comes to an end or
does not, ends in the same way, as the same machine and after the same calls with the same values. -/
theorem ends_iff_of_alike {other : Host τ} {t : τ} (halike : host.Alike s other t) :
    (∀ r m' calls, Ends host m s r m' calls ↔ Ends other m t r m' calls) ∧
      ((∃ fuel x, runToHalt host fuel m s = some x) ↔ ∃ fuel x, runToHalt other fuel m t = some x) := by
  have hother : other.Alike t host s := fun calls => (halike calls).symm
  have hends : ∀ r m' calls, Ends host m s r m' calls ↔ Ends other m t r m' calls := fun r m' calls =>
    ⟨.of_alike halike, .of_alike hother⟩
  refine ⟨hends, ?_, ?_⟩
  · rintro ⟨fuel, ⟨r, m', s'⟩, hrun⟩
    obtain ⟨calls, h⟩ := exists_ends hrun
    obtain ⟨fuel', t', h', -⟩ := (hends r m' calls).1 h
    exact ⟨fuel', _, h'⟩
  · rintro ⟨fuel, ⟨r, m', t'⟩, hrun⟩
    obtain ⟨calls, h⟩ := exists_ends hrun
    obtain ⟨fuel', s', h', -⟩ := (hends r m' calls).2 h
    exact ⟨fuel', _, h'⟩

end Machine

/-- Hosts over one queue answer alike, however they pause. -/
theorem Queue.alike_pausingHost (afterRead afterWrite afterRead' afterWrite' : Flow) (q : Queue) :
    (pausingHost afterRead afterWrite).Alike q (pausingHost afterRead' afterWrite') q := by
  intro calls
  induction calls generalizing q with
  | nil => rfl
  | cons c calls ih =>
    obtain ⟨inputs, written⟩ := q
    cases c with
    | read =>
      cases inputs with
      | nil => exact congrArg (_ :: ·) (ih _)
      | cons v rest => exact congrArg (_ :: ·) (ih _)
    | write v => exact congrArg (_ :: ·) (ih _)

/-- Reads two numbers and writes the first one and their sum. -/
def Machine.adder : Machine :=
  .ofWords [3, 20, 4, 20, 3, 21, 1, 20, 21, 22, 4, 22, 99]

/-- The adder is paused four times by one host and never by the other. -/
theorem Machine.ends_adder :
    ∃ m', Ends Queue.host adder (.ofInputs [5, 7]) (.ok ()) m' [.read, .write 5, .read, .write 12] ∧
      Ends (Queue.pausingHost .suspend .suspend) adder (.ofInputs [5, 7]) (.ok ()) m'
        [.read, .write 5, .read, .write 12] := by
  have hrun : (runToHalt Queue.host.recorded 10 adder (.ofInputs [5, 7], [])).any (fun r =>
      r.1.toOption.any fun _ => decide (r.2.2.2 = [.read, .write 5, .read, .write 12])) = true := by decide +kernel
  obtain ⟨⟨_, m', q, calls⟩, h, hr⟩ := (Option.any_eq_true _ _).1 hrun
  obtain ⟨⟨⟩, rfl, hcalls⟩ := exists_ok_of_any hr
  obtain rfl := of_decide_eq_true hcalls
  have hends : Ends Queue.host adder (.ofInputs [5, 7]) (.ok ()) m' _ := ends_iff.2 ⟨10, q, h⟩
  have halike := Queue.alike_pausingHost .proceed .proceed .suspend .suspend (.ofInputs [5, 7])
  exact ⟨m', hends, ((ends_iff_of_alike halike).1 _ _ _).1 hends⟩

end Lamcode
