import Lamcode.Machine.Schedule
import Lamcode.Proofs.Machine.Suspension

/-!
# Lamcode.Proofs.Machine.Isolation — a machine of a schedule does what it does alone

The machines of a schedule share nothing but the script. Every message that was drawn is delivered to one exchange of
the machine it names, in the order of drawing, before the director is asked again; only the last one may be left over,
and only when the run fails. A `Delivery` is such an exchange, and the deliveries of a run fix both what the director
was handed and what each machine has done: machine `i` ends where it ends alone on a host that has exactly the values
of its own deliveries to give and room for as many values as it has written (`Machine.Alone`).

The proof follows one machine through its turns by what it exchanged (`Machine.Transfers`), without the channel, and
the channel through a turn by what was exchanged (`Channel.Draws`), without the machine.
-/

namespace Lamcode

/-! ## A host with a fixed ration -/

/-- The value that was read. -/
def Transfer.input? : Transfer → Option Int
  | .input v => some v
  | .output _ => none

/-- Whether the value was written. -/
def Transfer.isOutput : Transfer → Bool
  | .input _ => false
  | .output _ => true

/-- What a host still has to give, how many values it still accepts, and the exchanges it has made. -/
structure Ration where
  inputs : List Int
  room : Nat
  made : List Transfer
  deriving DecidableEq

namespace Ration

/-- The ration for these exchanges once some others were made. -/
def left (ts made : List Transfer) : Ration where
  inputs := ts.filterMap Transfer.input?
  room := ts.countP Transfer.isOutput
  made := made

/-- Whether nothing is left. -/
def spent (q : Ration) : Bool :=
  q.inputs.isEmpty && q.room == 0

/-- How the machine goes on: freely while something is left, and as told with the last exchange. -/
def flow (last : Flow) (q : Ration) : Flow :=
  if q.spent then last else .proceed

/-- The host that deals out a ration and refuses whatever goes beyond it. -/
def host (last : Flow) : Host Ration where
  read q :=
    match q.inputs with
    | [] => (.error .noInput, q)
    | v :: rest =>
      let q := ⟨rest, q.room, q.made ++ [.input v]⟩
      (.ok (v, q.flow last), q)
  write v q :=
    match q.room with
    | 0 => (.error .noInput, q)
    | room + 1 =>
      let q := ⟨q.inputs, room, q.made ++ [.output v]⟩
      (.ok (q.flow last), q)

variable {last : Flow}

theorem spent_left {ts : List Transfer} (made : List Transfer) : (left ts made).spent = ts.isEmpty := by
  cases ts with
  | nil => rfl
  | cons t ts => cases t <;> simp [left, spent, Transfer.input?, Transfer.isOutput]

theorem read_left (v : Int) (ts made : List Transfer) :
    (host last).read (left (.input v :: ts) made) =
      (.ok (v, if ts.isEmpty then last else .proceed), left ts (made ++ [.input v])) := by
  rw [← spent_left (made ++ [.input v])]
  rfl

theorem write_left (v : Int) (ts made : List Transfer) :
    (host last).write v (left (.output v :: ts) made) =
      (.ok (if ts.isEmpty then last else .proceed), left ts (made ++ [.output v])) := by
  have hroom : (Transfer.output v :: ts).countP Transfer.isOutput = ts.countP Transfer.isOutput + 1 :=
    List.countP_cons_of_pos rfl
  rw [← spent_left (made ++ [.output v]), left, hroom]
  rfl

end Ration

namespace Machine

variable {m m' m₁ : Machine} {ts us : List Transfer}

/-- How the machine ends when it runs by itself and can make these exchanges and no others. -/
inductive Alone (m : Machine) : List Transfer → Machine → Prop
  /-- It never gets to run. -/
  | untouched : Alone m [] m
  /-- It is paused right after the last exchange. -/
  | paused {ts : List Transfer} {m' : Machine} (fuel : Nat)
    (h : m.run (Ration.host .suspend) fuel (Ration.left ts []) = some (.ok .suspended, m', Ration.left [] ts)) :
    Alone m ts m'
  /-- It is not paused, and halts, faults or asks for one exchange more. -/
  | ended {ts : List Transfer} {m' : Machine} (fuel : Nat) (r : Except Fault Outcome)
    (h : m.run (Ration.host .proceed) fuel (Ration.left ts []) = some (r, m', Ration.left [] ts))
    (hstatus : m'.status = .halted) : Alone m ts m'

/-! ## Ways to stop -/

/-- The machine stops for good. -/
inductive Stops (m : Machine) : List Transfer → Machine → Prop
  | halt (h : m.demand = .halt) : Stops m [] m
  | fault {e : Fault} (h : m.demand = .fault e) : Stops m [] m
  /-- A value is taken from the host before the operand turns out to be no address. -/
  | misread {e : Fault} (h : m.demand = .read (.error e)) (v : Int) : Stops m [.input v] m
  | unread {target : Except Fault Nat} (h : m.demand = .read target) : Stops m [] m
  | unwritten {v : Int} (h : m.demand = .write v) : Stops m [] m.passed

/-- The machine makes these exchanges and is right behind the last one. -/
def Paused (m : Machine) (ts : List Transfer) (m' : Machine) : Prop :=
  ∃ us t m₁, ts = us ++ [t] ∧ Transfers m us m₁ ∧ m₁.Exchanges t m'

/-- The machine makes these exchanges and stops for good. -/
def Ended (m : Machine) (ts : List Transfer) (m' : Machine) : Prop :=
  ∃ us vs m₁, ts = us ++ vs ∧ Transfers m us m₁ ∧ m₁.Stops vs m'

theorem Transfers.paused (h : Transfers m ts m₁) (k : m₁.Paused us m') : m.Paused (ts ++ us) m' := by
  obtain ⟨vs, t, m₂, rfl, hvs, ht⟩ := k
  exact ⟨ts ++ vs, t, m₂, (List.append_assoc ..).symm, h.trans hvs, ht⟩

theorem Transfers.ended (h : Transfers m ts m₁) (k : m₁.Ended us m') : m.Ended (ts ++ us) m' := by
  obtain ⟨vs, ws, m₂, rfl, hvs, hws⟩ := k
  exact ⟨ts ++ vs, ws, m₂, (List.append_assoc ..).symm, h.trans hvs, hws⟩

theorem Paused.transfers (h : m.Paused ts m') : Transfers m ts m' := by
  obtain ⟨us, t, m₁, rfl, hus, ht⟩ := h
  exact hus.trans (.exchange ht (.refl m'))

/-! ### On the ration -/

theorem Exchanges.step_ration {t : Transfer} (h : m.Exchanges t m') (last : Flow) (ts made : List Transfer) :
    m.step (Ration.host last) (Ration.left (t :: ts) made) =
      (.ok (if ts.isEmpty then last else .proceed).toStep, m', Ration.left ts (made ++ [t])) := by
  rw [step_eq]
  cases h with
  | input hd v => rw [hd, meet, Ration.read_left]
  | output hd => rw [hd, meet, Ration.write_left]

/-- The ration of the exchanges that a machine makes takes it there, if some of it is left or the host never pauses. -/
theorem Transfers.loop_ration (h : Transfers m ts m₁) (last : Flow) (us : List Transfer)
    (hon : us ≠ [] ∨ last = .proceed) (made : List Transfer) :
    ∃ n, ∀ fuel, loop (Ration.host last) (fuel + n) m (Ration.left (ts ++ us) made) =
      loop (Ration.host last) fuel m₁ (Ration.left us (made ++ ts)) := by
  induction h generalizing made with
  | refl m => exact ⟨0, fun fuel => by simp⟩
  | @proceed m next m₁ ts hd _ ih =>
    obtain ⟨n, hn⟩ := ih made
    refine ⟨n + 1, fun fuel => ?_⟩
    rw [← hn fuel, ← Nat.add_assoc, loop, step_eq, hd]
    rfl
  | @exchange m next m₁ t ts hx _ ih =>
    obtain ⟨n, hn⟩ := ih (made ++ [t])
    refine ⟨n + 1, fun fuel => ?_⟩
    have hflow : (if (ts ++ us).isEmpty then last else Flow.proceed) = .proceed := by
      rcases hon with hus | rfl
      · simp [hus]
      · exact ite_self _
    rw [← Nat.add_assoc, loop, List.cons_append, hx.step_ration, hflow, List.append_cons made t ts]
    exact hn fuel

theorem Paused.loop_ration (h : m.Paused ts m') :
    ∃ fuel, loop (Ration.host .suspend) fuel m (Ration.left ts []) =
      some (.ok .suspended, m'.withStatus .idle, Ration.left [] ts) := by
  obtain ⟨us, t, m₁, rfl, hus, ht⟩ := h
  obtain ⟨n, hn⟩ := hus.loop_ration .suspend [t] (.inl (List.cons_ne_nil t [])) []
  refine ⟨1 + n, ?_⟩
  rw [hn, loop, ht.step_ration]
  rfl

theorem Stops.loop_ration (h : m.Stops ts m') (made : List Transfer) :
    ∃ r, loop (Ration.host .proceed) 1 m (Ration.left ts made) =
      some (r, m'.withStatus .halted, Ration.left [] (made ++ ts)) := by
  rw [loop, step_eq]
  cases h with
  | halt hd => exact ⟨.ok .halted, by rw [hd, List.append_nil]; rfl⟩
  | @fault e hd => exact ⟨.error e, by rw [hd, List.append_nil]; rfl⟩
  | @misread e hd v => exact ⟨.error e, by rw [hd, meet, Ration.read_left]; rfl⟩
  | unread hd => exact ⟨.error .noInput, by rw [hd, List.append_nil]; rfl⟩
  | unwritten hd => exact ⟨.error .noInput, by rw [hd, List.append_nil]; rfl⟩

theorem Ended.loop_ration (h : m.Ended ts m') :
    ∃ fuel r, loop (Ration.host .proceed) fuel m (Ration.left ts []) =
      some (r, m'.withStatus .halted, Ration.left [] ts) := by
  obtain ⟨us, vs, m₁, rfl, hus, hvs⟩ := h
  obtain ⟨n, hn⟩ := hus.loop_ration .proceed vs (.inr rfl) []
  obtain ⟨r, hr⟩ := hvs.loop_ration us
  exact ⟨1 + n, r, (hn 1).trans hr⟩

/-! ## From turn to turn -/

/-- Where a machine is after it was served these exchanges, in any number of turns. -/
inductive Served (m : Machine) : List Transfer → Machine → Prop
  | untouched : Served m [] m
  | paused {ts : List Transfer} {m' : Machine} (hidle : m.status = .idle)
    (h : (m.withStatus .running).Paused ts m') : Served m ts (m'.withStatus .idle)
  | ended {ts : List Transfer} {m' : Machine} (hidle : m.status = .idle)
    (h : (m.withStatus .running).Ended ts m') : Served m ts (m'.withStatus .halted)

theorem run_of_idle {σ : Type} (host : Host σ) (fuel : Nat) (hidle : m.status = .idle) (s : σ) :
    m.run host fuel s = loop host fuel (m.withStatus .running) s := by
  rw [run, hidle]
  rfl

theorem Served.alone (h : m.Served ts m') : m.Alone ts m' := by
  cases h with
  | untouched => exact .untouched
  | paused hidle h =>
    obtain ⟨fuel, hloop⟩ := h.loop_ration
    exact .paused fuel ((run_of_idle _ fuel hidle _).trans hloop)
  | ended hidle h =>
    obtain ⟨fuel, r, hloop⟩ := h.loop_ration
    exact .ended fuel r ((run_of_idle _ fuel hidle _).trans hloop) rfl

/-- A machine that may run again has made its exchanges when it does. -/
theorem Served.transfers (h : m.Served ts m') (hidle : m'.status = .idle) :
    m.status = .idle ∧ Transfers (m.withStatus .running) ts (m'.withStatus .running) := by
  cases h with
  | untouched => exact ⟨hidle, .refl _⟩
  | @paused ts m₁ hm h =>
    have hstatus : m₁.status = .running := h.transfers.status
    have hback : (m₁.withStatus .idle).withStatus .running = m₁ := withStatus_of_status hstatus
    exact ⟨hm, hback ▸ h.transfers⟩
  | ended hm h => cases hidle

end Machine

/-! ## What a turn draws -/

/-- The answers of a director that is handed these values, one call after the other. -/
def Director.answers {δ : Type} (d : Director δ) : List (Option Int) → δ → List (Option Message) × δ
  | [], s => ([], s)
  | received :: rest, s =>
    let (message, s) := d.next received s
    let (messages, s) := d.answers rest s
    (message :: messages, s)

/-- One exchange of a machine of the schedule. -/
structure Delivery where
  machine : Nat
  transfer : Transfer

namespace Delivery

/-- The message that asks for the exchange. -/
def message (x : Delivery) : Message :=
  match x.transfer with
  | .input v => .provide x.machine v
  | .output _ => .receive x.machine

/-- What the director is handed once the exchange is made. -/
def reply (x : Delivery) : Option Int :=
  match x.transfer with
  | .input _ => none
  | .output v => some v

/-- The exchanges of one machine. -/
def madeBy (i : Nat) (xs : List Delivery) : List Transfer :=
  xs.filterMap fun x => if x.machine = i then some x.transfer else none

theorem madeBy_append (i : Nat) (xs ys : List Delivery) : madeBy i (xs ++ ys) = madeBy i xs ++ madeBy i ys :=
  List.filterMap_append ..

theorem madeBy_cons (i : Nat) (x : Delivery) (xs : List Delivery) :
    madeBy i (x :: xs) = if x.machine = i then x.transfer :: madeBy i xs else madeBy i xs := by
  by_cases h : x.machine = i <;> simp [madeBy, h]

theorem madeBy_self (i : Nat) (ts : List Transfer) : madeBy i (ts.map (Delivery.mk i)) = ts := by
  induction ts with
  | nil => rfl
  | cons t ts ih => rw [List.map_cons, madeBy_cons, if_pos rfl, ih]

theorem madeBy_of_ne {i j : Nat} (h : i ≠ j) (ts : List Transfer) : madeBy j (ts.map (Delivery.mk i)) = [] := by
  induction ts with
  | nil => rfl
  | cons t ts ih => rw [List.map_cons, madeBy_cons, if_neg h, ih]

end Delivery

variable {δ : Type} {d : Director δ}

theorem Director.answers_append (d : Director δ) (rs rs' : List (Option Int)) (s : δ) :
    d.answers (rs ++ rs') s =
      ((d.answers rs s).1 ++ (d.answers rs' (d.answers rs s).2).1, (d.answers rs' (d.answers rs s).2).2) := by
  induction rs generalizing s with
  | nil => rfl
  | cons r rs ih =>
    simp only [List.cons_append, answers, ih]

namespace Channel

variable {i : Nat} {c c' c₁ : Channel δ} {ts : List Transfer}

/-- The channel after the director was handed a value. -/
def after (d : Director δ) (received : Option Int) (c : Channel δ) : Channel δ :=
  ⟨(d.next received c.director).1, (d.next received c.director).2⟩

/-- Machine `i` makes these exchanges, each one for the message that is pending. -/
inductive Draws (d : Director δ) (i : Nat) : Channel δ → List Transfer → Channel δ → Prop
  | refl (c : Channel δ) : Draws d i c [] c
  | step {c c' : Channel δ} {t : Transfer} {ts : List Transfer} (h : c.pending = some (Delivery.mk i t).message)
    (k : Draws d i (c.after d (Delivery.mk i t).reply) ts c') : Draws d i c (t :: ts) c'

/-- The messages drawn are the pending one and those that the exchanges were answered with. -/
theorem Draws.answers (h : Draws d i c ts c') :
    let xs := ts.map (Delivery.mk i)
    c.pending :: (d.answers (xs.map Delivery.reply) c.director).1 =
        xs.map (fun x => some x.message) ++ [c'.pending] ∧
      (d.answers (xs.map Delivery.reply) c.director).2 = c'.director := by
  induction h with
  | refl c => exact ⟨rfl, rfl⟩
  | @step c c' t ts hpending _ ih =>
    obtain ⟨hmessages, hdirector⟩ := ih
    refine ⟨?_, hdirector⟩
    rw [hpending]
    exact congrArg _ hmessages

theorem advance_eq (d : Director δ) (i : Nat) (received : Option Int) (c : Channel δ) :
    ∃ flow, advance d i received c = (flow, c.after d received) := by
  unfold advance after
  rcases d.next received c.director with ⟨_ | message, s⟩
  · exact ⟨_, rfl⟩
  · exact ⟨_, rfl⟩

/-- A value that the machine reads is that of the pending message; a refusal draws nothing. -/
theorem read_cases (d : Director δ) (i : Nat) (c : Channel δ) :
    (∃ v flow, c.pending = some (.provide i v) ∧ (host d i).read c = (.ok (v, flow), c.after d none)) ∨
      ∃ e c', (host d i).read c = (.error e, c') ∧ c'.director = c.director := by
  have hmismatch (h : (host d i).read c = (.error (.scriptMismatch i .read), ⟨none, c.director⟩)) :
      ∃ e c', (host d i).read c = (.error e, c') ∧ c'.director = c.director := ⟨_, _, h, rfl⟩
  rcases hp : c.pending with _ | ⟨target, v⟩ | target
  · exact .inr ⟨.scriptEnded i, c, by simp only [host, hp], rfl⟩
  · by_cases htarget : target = i
    · subst htarget
      obtain ⟨flow, hflow⟩ := advance_eq d target none c
      exact .inl ⟨v, flow, rfl, by simp only [host, hp, hflow, if_true]⟩
    · exact .inr (hmismatch (by simp only [host, hp, htarget, if_false]))
  · exact .inr (hmismatch (by simp only [host, hp]))

/-- A value that the machine writes was asked for by the pending message; a refusal draws nothing. -/
theorem write_cases (d : Director δ) (i : Nat) (v : Int) (c : Channel δ) :
    (∃ flow, c.pending = some (.receive i) ∧ (host d i).write v c = (.ok flow, c.after d (some v))) ∨
      ∃ e c', (host d i).write v c = (.error e, c') ∧ c'.director = c.director := by
  have hmismatch (h : (host d i).write v c = (.error (.scriptMismatch i .write), ⟨none, c.director⟩)) :
      ∃ e c', (host d i).write v c = (.error e, c') ∧ c'.director = c.director := ⟨_, _, h, rfl⟩
  rcases hp : c.pending with _ | ⟨target, w⟩ | target
  · exact .inr ⟨.scriptEnded i, c, by simp only [host, hp], rfl⟩
  · exact .inr (hmismatch (by simp only [host, hp]))
  · by_cases htarget : target = i
    · subst htarget
      obtain ⟨flow, hflow⟩ := advance_eq d target (some v) c
      exact .inl ⟨flow, rfl, by simp only [host, hp, hflow, if_true]⟩
    · exact .inr (hmismatch (by simp only [host, hp, htarget, if_false]))

/-- How a turn ends: paused or halted with the channel as the exchanges left it, or failed, which may have used up the
pending message. -/
inductive Turn (m : Machine) (ts : List Transfer) (c : Channel δ) :
    Except Fault Outcome × Machine × Channel δ → Prop
  | suspended {m' : Machine} (h : m.Paused ts m') : Turn m ts c (.ok .suspended, m'.withStatus .idle, c)
  | halted {m' : Machine} (h : m.Ended ts m') : Turn m ts c (.ok .halted, m'.withStatus .halted, c)
  | failed {m' : Machine} {c' : Channel δ} {e : Fault} (h : m.Ended ts m') (hdirector : c'.director = c.director) :
    Turn m ts c (.error e, m'.withStatus .halted, c')

theorem Turn.of_transfers {m m₁ : Machine} {us : List Transfer} {r : Except Fault Outcome × Machine × Channel δ}
    (h : Machine.Transfers m ts m₁) (k : Turn m₁ us c r) : Turn m (ts ++ us) c r := by
  cases k with
  | suspended hp => exact .suspended (h.paused hp)
  | halted he => exact .halted (h.ended he)
  | failed he hdirector => exact .failed (h.ended he) hdirector

theorem turn_of_stops {m m' : Machine} {e : Fault} (h : m.Stops ts m') (hdirector : c'.director = c.director) :
    Turn m ts c (.error e, m'.withStatus .halted, c') :=
  .failed ⟨[], ts, m, rfl, .refl m, h⟩ hdirector

/-- A machine that runs on the channel makes exchanges that the channel asked for, and then its turn ends. -/
theorem exists_turn_of_loop {fuel : Nat} {m : Machine} {r : Except Fault Outcome × Machine × Channel δ}
    (h : Machine.loop (host d i) fuel m c = some r) : ∃ ts c₁, Draws d i c ts c₁ ∧ Turn m ts c₁ r := by
  induction fuel generalizing m c with
  | zero => cases h
  | succ fuel ih =>
    -- an exchange that was made is followed by a pause or by the rest of the turn
    have hexchange {t : Transfer} {next : Machine} (flow : Flow) (hx : m.Exchanges t next)
        (hpending : c.pending = some (Delivery.mk i t).message)
        (hstep : m.step (host d i) c = (.ok flow.toStep, next, c.after d (Delivery.mk i t).reply)) :
        ∃ ts c₁, Draws d i c ts c₁ ∧ Turn m ts c₁ r := by
      rw [Machine.loop, hstep] at h
      cases flow with
      | proceed =>
        obtain ⟨ts, c₁, hdraws, hturn⟩ := ih h
        exact ⟨t :: ts, c₁, .step hpending hdraws, hturn.of_transfers (.exchange hx (.refl next))⟩
      | suspend =>
        cases h
        exact ⟨[t], _, .step hpending (.refl _), .suspended ⟨[], t, m, rfl, .refl m, hx⟩⟩
    rw [Machine.loop] at h
    have hstep := Machine.step_eq (host d i) m c
    cases hd : m.demand with
    | proceed next =>
      rw [hstep, hd] at h
      obtain ⟨ts, c₁, hdraws, hturn⟩ := ih h
      exact ⟨ts, c₁, hdraws, hturn.of_transfers (.proceed hd (.refl next))⟩
    | halt =>
      rw [hstep, hd] at h
      cases h
      exact ⟨[], c, .refl c, .halted ⟨[], [], m, rfl, .refl m, .halt hd⟩⟩
    | fault e =>
      rw [hstep, hd] at h
      cases h
      exact ⟨[], c, .refl c, turn_of_stops (.fault hd) rfl⟩
    | read target =>
      rw [hd, Machine.meet] at hstep
      obtain ⟨v, flow, hpending, hread⟩ | ⟨e, c', hread, hdirector⟩ := read_cases d i c
      · rw [hread] at hstep
        cases target with
        | error e =>
          rw [hstep] at h
          cases h
          exact ⟨[.input v], _, .step hpending (.refl _), turn_of_stops (.misread hd v) rfl⟩
        | ok dest => exact hexchange flow (.input hd v) hpending hstep
      · rw [hstep, hread] at h
        cases h
        exact ⟨[], c, .refl c, turn_of_stops (.unread hd) hdirector⟩
    | write v =>
      rw [hd, Machine.meet] at hstep
      obtain ⟨flow, hpending, hwrite⟩ | ⟨e, c', hwrite, hdirector⟩ := write_cases d i v c
      · rw [hwrite] at hstep
        exact hexchange flow (.output hd) hpending hstep
      · rw [hstep, hwrite] at h
        cases h
        exact ⟨[], c, .refl c, turn_of_stops (.unwritten hd) hdirector⟩

/-- A turn of a machine that has had others before: it is served what the turn draws. -/
theorem exists_served_of_run {fuel : Nat} {m₀ m m' : Machine} {us : List Transfer} {r : Except Fault Outcome}
    (hserved : m₀.Served us m) (h : m.run (host d i) fuel c = some (r, m', c')) :
    ∃ ts c₁, Draws d i c ts c₁ ∧ m₀.Served (us ++ ts) m' ∧ c'.director = c₁.director ∧
      ∀ outcome, r = .ok outcome → c' = c₁ := by
  cases hstatus : m.status with
  | halted | running =>
    rw [Machine.run, hstatus] at h
    cases h
    refine ⟨[], c, .refl c, by simpa using hserved, rfl, ?_⟩
    intro outcome hr
    cases hr
  | idle =>
    rw [Machine.run_of_idle _ _ hstatus] at h
    obtain ⟨hidle, htransfers⟩ := hserved.transfers hstatus
    obtain ⟨ts, c₁, hdraws, hturn⟩ := exists_turn_of_loop h
    refine ⟨ts, c₁, hdraws, ?_⟩
    cases hturn with
    | suspended hp => exact ⟨.paused hidle (htransfers.paused hp), rfl, fun _ _ => rfl⟩
    | halted he => exact ⟨.ended hidle (htransfers.ended he), rfl, fun _ _ => rfl⟩
    | failed he hdirector =>
      refine ⟨.ended hidle (htransfers.ended he), hdirector, ?_⟩
      intro outcome hr
      cases hr

end Channel

/-! ## The whole run -/

namespace Schedule

/-- The deliveries of a run: `last` is the message that was drawn behind them, if there was one. -/
structure Delivers (d : Director δ) (s : δ) (machines : List Machine) (xs : List Delivery) (last : Option Message)
    (machines' : List Machine) (s' : δ) : Prop where
  /-- The director is called once in front and then once for each delivery, with what was written for it, and answers
  with the messages that the deliveries are made for, in their order. -/
  drawn : d.answers (none :: xs.map Delivery.reply) s = (xs.map (fun x => some x.message) ++ [last], s')
  /-- Every delivery is made by one of the machines. -/
  within : ∀ x ∈ xs, x.machine < machines.length
  length : machines'.length = machines.length
  /-- Every machine has made the exchanges of its own deliveries, as it does alone. -/
  alone : ∀ (i : Nat) (m m' : Machine), machines[i]? = some m → machines'[i]? = some m' →
    m.Alone (Delivery.madeBy i xs) m'

/-- The same of a run that still goes on. -/
structure Progress (d : Director δ) (s : δ) (machines : List Machine) (xs : List Delivery) (ms : List Machine)
    (c : Channel δ) : Prop where
  drawn : d.answers (none :: xs.map Delivery.reply) s = (xs.map (fun x => some x.message) ++ [c.pending], c.director)
  within : ∀ x ∈ xs, x.machine < machines.length
  length : ms.length = machines.length
  served : ∀ (i : Nat) (m m' : Machine), machines[i]? = some m → ms[i]? = some m' → m.Served (Delivery.madeBy i xs) m'

variable {s s' : δ} {machines machines' ms : List Machine} {xs : List Delivery} {c c₁ : Channel δ}

theorem progress_openChannel (d : Director δ) (s : δ) (machines : List Machine) :
    Progress d s machines [] machines (openChannel d s) where
  drawn := rfl
  within x hx := by cases hx
  length := rfl
  served i m m' hm hm' := by
    cases hm.symm.trans hm'
    exact .untouched

/-- A turn of machine `i` adds its exchanges to the deliveries and leaves the other machines as they are. -/
theorem Progress.turn {i : Nat} {m₀ m' : Machine} {ts : List Transfer} (h : Progress d s machines xs ms c)
    (hm₀ : machines[i]? = some m₀) (hdraws : Channel.Draws d i c ts c₁)
    (hserved : m₀.Served (Delivery.madeBy i xs ++ ts) m') :
    Progress d s machines (xs ++ ts.map (Delivery.mk i)) (ms.set i m') c₁ where
  drawn := by
    obtain ⟨hmessages, hdirector⟩ := hdraws.answers
    rw [List.map_append, ← List.cons_append, Director.answers_append, h.drawn]
    simp only [hdirector, List.map_append, List.append_assoc, List.singleton_append, hmessages]
  within x hx := by
    have hi : i < machines.length := (List.getElem?_eq_some_iff.1 hm₀).1
    rcases List.mem_append.1 hx with hx | hx
    · exact h.within x hx
    · obtain ⟨t, -, rfl⟩ := List.mem_map.1 hx
      exact hi
  length := (List.length_set ..).trans h.length
  served j m m'' hm hm'' := by
    rw [Delivery.madeBy_append]
    by_cases hij : i = j
    · subst hij
      cases hm.symm.trans hm₀
      have hi : i < ms.length := h.length ▸ (List.getElem?_eq_some_iff.1 hm₀).1
      rw [List.getElem?_set_self hi] at hm''
      cases hm''
      rwa [Delivery.madeBy_self]
    · rw [List.getElem?_set_ne hij] at hm''
      rw [Delivery.madeBy_of_ne hij, List.append_nil]
      exact h.served j m m'' hm hm''

/-- The turns of a run carry the deliveries to its end; the channel is left as they leave it when none fails. -/
theorem Progress.turns {fuel : Nat} {r : Except Fault Unit} {c' : Channel δ}
    (h : Progress d s machines xs ms c) (hturns : turns d fuel ms c = some (r, machines', c')) :
    ∃ xs' c₁, Progress d s machines xs' machines' c₁ ∧ c'.director = c₁.director ∧
      (r = .ok () → c₁.pending = none) := by
  induction fuel generalizing xs ms c with
  | zero => cases hturns
  | succ fuel ih =>
    rw [Schedule.turns] at hturns
    cases hpending : c.pending with
    | none =>
      rw [hpending] at hturns
      cases hturns
      exact ⟨xs, _, h, rfl, fun _ => hpending⟩
    | some message =>
      simp only [hpending] at hturns
      cases hm : ms[message.target]? with
      | none =>
        simp only [hm] at hturns
        cases hturns
        exact ⟨xs, _, h, rfl, nofun⟩
      | some m =>
        simp only [hm] at hturns
        by_cases hhalted : m.status = .halted
        · rw [if_pos hhalted] at hturns
          cases hturns
          exact ⟨xs, _, h, rfl, nofun⟩
        · rw [if_neg hhalted] at hturns
          have htarget : message.target < machines.length := h.length ▸ (List.getElem?_eq_some_iff.1 hm).1
          have hm₀ := List.getElem?_eq_getElem htarget
          have hserved := h.served _ _ _ hm₀ hm
          rcases hrun : m.run (Channel.host d message.target) (fuel + 1) c with _ | ⟨_ | outcome, m', c''⟩
          · simp only [hrun] at hturns
            cases hturns
          · simp only [hrun] at hturns
            cases hturns
            obtain ⟨ts, c₁, hdraws, hserved', hdirector, -⟩ := Channel.exists_served_of_run hserved hrun
            exact ⟨_, c₁, h.turn hm₀ hdraws hserved', hdirector, nofun⟩
          · simp only [hrun] at hturns
            obtain ⟨ts, c₁, hdraws, hserved', -, hsame⟩ := Channel.exists_served_of_run hserved hrun
            cases hsame outcome rfl
            exact ih (h.turn hm₀ hdraws hserved') hturns

/-- Every run of a schedule that returns is made of deliveries, each one the exchange that a message of the director
asks for, and each machine ends as it does alone. A run without a fault leaves no message over. -/
theorem exists_delivers_of_run {fuel : Nat} {r : Except Fault Unit}
    (h : run d fuel machines s = some (r, machines', s')) :
    ∃ xs last, Delivers d s machines xs last machines' s' ∧ (r = .ok () → last = none) := by
  obtain ⟨⟨r, ms, c⟩, hturns, heq⟩ := Option.map_eq_some_iff.1 h
  cases heq
  obtain ⟨xs, c₁, hprogress, hdirector, hok⟩ := (progress_openChannel d s machines).turns hturns
  refine ⟨xs, c₁.pending, ⟨?_, hprogress.within, hprogress.length, ?_⟩, hok⟩
  · rw [hdirector]
    exact hprogress.drawn
  · intro i m m' hm hm'
    exact (hprogress.served i m m' hm hm').alone

/-- Reads and writes back two numbers. -/
def echo : Machine :=
  .ofWords [3, 0, 4, 0, 3, 0, 4, 0, 99]

/-- The two numbers of each machine, interleaved; the first machine gets its second one from the other machine. -/
def interleaved : Script :=
  .ofCues [.message (.provide 0 1), .message (.provide 1 2), .message (.receive 0), .message (.receive 1),
    .message (.provide 1 3), .message (.receive 1), .forward 0, .message (.receive 0)]

/-- Two machines that are paused in turn deliver every message. -/
theorem exists_delivers_echo :
    ∃ machines' s', run Script.director 20 [echo, echo] interleaved = some (.ok (), machines', s') ∧
      ∃ xs, Delivers Script.director interleaved [echo, echo] xs none machines' s' := by
  have hrun : (run Script.director 20 [echo, echo] interleaved).any (fun r => r.1.toOption.any fun _ => true) = true := by
    decide +kernel
  obtain ⟨⟨_, machines', s'⟩, h, hr⟩ := (Option.any_eq_true _ _).1 hrun
  obtain ⟨⟨⟩, rfl, -⟩ := exists_ok_of_any hr
  obtain ⟨xs, last, hdelivers, hlast⟩ := exists_delivers_of_run h
  cases hlast rfl
  exact ⟨machines', s', h, xs, hdelivers⟩

end Schedule

end Lamcode
