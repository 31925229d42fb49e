import Lamcode.Proofs.Simulation.Expression

/-!
# Lamcode.Proofs.Simulation.Assignment — the code of assignments fills slots

An assignment calls the routine that allocates scope records, evaluates its clauses and its value in a frame two
words up, and leaves the value in slot 0. The record is a frame of the evaluator: its words are the slots, and storing
a value under a name of the nearest block fills the slot of that name.
-/

namespace Lamcode.Simulation

open Layout Emit Operand Reference

variable {I : Image}

/-! ## What is to be shown -/

/-- The code of assignments does what the evaluator does with this fuel. -/
def EvaluatesAssignment (I : Image) (fuel : Nat) : Prop :=
  ∀ {depth : Nat} {env : Env Site} {x : Assignment Site Header} {v : Value Site} {st : State Site} {S : Scene I}
    {site : Site} {scope a a' h h' : Nat},
    evalAssignment I.room fuel depth env x S.state = .ok (v, st) →
    FragmentStands I.layout I.scopes site x.emit a a' h h' → x.ScopedIn I.scopes scope →
    Encloses I S.world I.scopes env scope (S.mem (I.base depth - 2)) →
    Delivers S (I.base depth) a a' v st

/-- The code of a list of assignments does what the evaluator does with this fuel. -/
def EvaluatesAll (I : Image) (fuel : Nat) : Prop :=
  ∀ {depth : Nat} {env : Env Site} {xs : List (Assignment Site Header)} {u : Unit} {st : State Site} {S : Scene I}
    {site : Site} {scope a a' h h' : Nat},
    evalAll I.room fuel depth env xs S.state = .ok (u, st) →
    FragmentStands I.layout I.scopes site (Assignment.emitAll scope xs) a a' h h' →
    Assignment.AllScopedIn I.scopes scope xs → depth ≤ I.room.stack →
    Encloses I S.world I.scopes env scope (S.mem (I.base depth - 2)) →
    ∃ S' : Scene I, S'.state = st ∧
      I.layout.Runs ((S.data (I.base depth)).config a) ((S'.data (I.base depth)).config a') ∧
      Later (I.base depth) S.top S S'

/-! ## The allocator -/

/-- The allocator opens a frame of `n` slots inside the record in slot 1, leaves the address of its record in slot 0
and goes to the address in slot 2. -/
theorem exists_openFrame {S : Scene I} {depth n ready : Nat} {r : Int} (hroom : depth + 4 ≤ I.room.stack)
    (hheap : S.state.heap + (1 + n) ≤ I.room.heap) (hn : S.mem (I.base depth) = n)
    (hr : S.mem (I.base depth + 1) = r) (hready : S.mem (I.base depth + 2) = ready)
    (hlt : ready < Memory.addressLimit) :
    ∃ S' : Scene I, S'.state = { S.state with heap := S.state.heap + (1 + n),
                                              frames := S.state.frames ++ [List.replicate n (.int 0)] } ∧
      I.layout.Runs ((S.data (I.base depth)).config I.allocator) ((S'.data (I.base depth)).config ready) ∧
      Later (I.base depth) S.top S S' ∧ S'.mem (I.base depth) = S.top ∧
      S'.world.word S.top = some (.fixed r) ∧
      ∀ i < n, S'.world.word (S.top + 1 + i) = some (.slot S.state.frames.length i) := by
  obtain ⟨site, a, hstands⟩ := I.allocator_stands
  have hstack : I.OnStack (I.base depth) := Image.onStack_of_le hroom (by omega) (by omega)
  have hstack₁ : I.OnStack (I.base depth + 1) := Image.onStack_of_le hroom (by omega) (by omega)
  have hstack₂ : I.OnStack (I.base depth + 2) := Image.onStack_of_le hroom (by omega) (by omega)
  have hstack₃ : I.OnStack (I.base depth + 3) := Image.onStack_of_le hroom (by omega) (by omega)
  have hram := S.ramBegin_le_top
  let S₁ := S.store (I.base depth + 3) S.top (Scene.loose_of_onStack hstack₃)
  have hr₁ : S₁.mem (I.base depth + 1) = r := (Function.update_of_ne (by omega) ..).trans hr
  have hheap₁ : S₁.state.heap + 1 ≤ I.room.heap := by
    change S.state.heap + 1 ≤ I.room.heap
    omega
  let S₂ := S₁.allot r hheap₁
  have hheap₂ : S₂.state.heap + n ≤ I.room.heap := by
    change S.state.heap + 1 + n ≤ I.room.heap
    omega
  let S₃ := S₂.openFrame n hheap₂
  have hlater₁ : Later (I.base depth) S.top S S₁ := (Later.refl _ _ _).push hstack₃ (by omega)
  have hlater₂ : Later (I.base depth + 4) S.top S₁ S₂ := S₁.later_allot hheap₁ (Int.le_refl _)
  have htop₂ : S₂.top = S.top + 1 := S₁.top_allot _
  have hopened : Later (I.base depth + 4) S.top S₂ S₃ := S₂.later_openFrame hheap₂ (by omega)
  have hlater₃ := hlater₂.trans hopened (Int.le_refl _) (Int.le_refl _)
  let S₄ := S₃.store (I.base depth) (S₃.mem (I.base depth + 3)) (Scene.loose_of_onStack hstack)
  have hn₂ : S₂.mem (I.base depth) = n := by
    rw [hlater₂.mem_onStack hstack (by omega) hram]
    exact (Function.update_of_ne (by omega) ..).trans hn
  have hready₄ : S₄.mem (I.base depth + 2) = ready := by
    refine (Function.update_of_ne (by omega) ..).trans ?_
    rw [hlater₃.mem_onStack hstack₂ (by omega) hram]
    exact (Function.update_of_ne (by omega) ..).trans hready
  have hopens : Falls I.layout I.scopes site _ (S₂.data (I.base depth)) (S₃.data (I.base depth)) :=
    falls_reserve (yields_slot (Int.add_zero _) hstack hn₂) hheap₂
  have hexits : Exits I.layout I.scopes site _ (S.data (I.base depth)) ((S₄.data (I.base depth)).config ready) :=
    .cons (falls_push yields_cursor rfl hstack₃)
      (.cons (falls_allot (S := S₁) (yields_slot rfl hstack₁ hr₁) hheap₁)
        (.cons hopens (.cons (falls_push (names_slot rfl hstack₃).yields (Int.add_zero _) hstack)
          (.last (.jump _) (exits_jump S₄.loaded (yields_slot rfl hstack₂ hready₄) hlt)))))
  have hlater := hlater₁.trans hlater₃ (by omega) (Int.le_refl _)
  refine ⟨S₄, ?_, hexits.runs hstands, hlater.push hstack (Int.le_refl _), ?_, ?_, fun i hi => ?_⟩
  · rw [← Nat.add_assoc]
    rfl
  · refine (Function.update_self ..).trans ?_
    rw [hlater₃.mem_onStack hstack₃ (by omega) hram]
    exact Function.update_self ..
  · exact hopened.extends_world (S₁.word_allot hheap₁)
  · rw [← htop₂]
    exact S₂.word_openFrame hheap₂ hi

/-! ## Assignments -/

/-- The code in front of the clauses opens their frame and moves two words up, so that its record is in slot -2. -/
theorem exists_entered {S : Scene I} {site : Site} {depth n a a₁ a₂ : Nat} {ready : Label}
    (hroom : depth + 4 ≤ I.room.stack) (hheap : S.state.heap + (1 + n) ≤ I.room.heap)
    (hcall : Stands I.layout I.scopes site (concat [copy (.int n) (rel 0), copy (rel (-2)) (rel 1),
      copy (.addressOf ready) (rel 2), jump (.addressOf .allocateScope)]) a a₁)
    (hready : I.layout.addresses[ready.index]? = some a₁)
    (henter : Stands I.layout I.scopes site (concat [moveStack 2]) a₁ a₂) :
    ∃ S' : Scene I, S'.state = { S.state with heap := S.state.heap + (1 + n),
                                              frames := S.state.frames ++ [List.replicate n (.int 0)] } ∧
      I.layout.Runs ((S.data (I.base depth)).config a) ((S'.data (I.base depth + 2)).config a₂) ∧
      Later (I.base depth) S.top S S' ∧ S'.mem (I.base depth) = S.top ∧
      S'.world.word S.top = some (.fixed (S.mem (I.base depth - 2))) ∧
      ∀ i < n, S'.world.word (S.top + 1 + i) = some (.slot S.state.frames.length i) := by
  have hscope : I.OnStack (I.base depth - 2) := Image.onStack_of_le hroom (by omega) (by omega)
  have hstack : I.OnStack (I.base depth) := Image.onStack_of_le hroom (by omega) (by omega)
  have hstack₁ : I.OnStack (I.base depth + 1) := Image.onStack_of_le hroom (by omega) (by omega)
  have hstack₂ : I.OnStack (I.base depth + 2) := Image.onStack_of_le hroom (by omega) (by omega)
  let S₁ := S.store (I.base depth) n (Scene.loose_of_onStack hstack)
  let S₂ := S₁.store (I.base depth + 1) (S₁.mem (I.base depth - 2)) (Scene.loose_of_onStack hstack₁)
  let S₃ := S₂.store (I.base depth + 2) a₁ (Scene.loose_of_onStack hstack₂)
  have hexits : Exits I.layout I.scopes site _ (S.data (I.base depth))
      ((S₃.data (I.base depth)).config I.allocator) :=
    .cons (falls_push (yields_int n) (Int.add_zero _) hstack)
      (.cons (falls_push (S := S₁) (names_slot (k := -2) rfl hscope).yields rfl hstack₁)
        (.cons (falls_push (S := S₂) (yields_addressOf hready) rfl hstack₂)
          (.last (.jump _) (exits_jump S₃.loaded (yields_addressOf I.address_allocator)
            (I.address_lt I.address_allocator)))))
  have hlater₃ : Later (I.base depth) S.top S S₃ :=
    (((Later.refl _ _ _).push hstack (Int.le_refl _)).push hstack₁ (by omega)).push hstack₂ (by omega)
  have hn : S₃.mem (I.base depth) = n :=
    (Function.update_of_ne (by omega) ..).trans
      ((Function.update_of_ne (by omega) ..).trans (Function.update_self ..))
  have hr : S₃.mem (I.base depth + 1) = S.mem (I.base depth - 2) :=
    (Function.update_of_ne (by omega) ..).trans
      ((Function.update_self ..).trans (Function.update_of_ne (by omega) ..))
  obtain ⟨S', hstate, hruns, hlater, hrecord, hparent, hslots⟩ := exists_openFrame (S := S₃) hroom hheap hn hr
    (Function.update_self ..) (I.address_lt hready)
  have hmove : Falls I.layout I.scopes site (concat [moveStack 2]) (S'.data (I.base depth))
      (S'.data (I.base depth + 2)) := (falls_move rfl).cons .nil
  exact ⟨S', hstate, ((hexits.runs hcall).trans hruns).trans (hmove.runs henter),
    hlater₃.trans hlater (Int.le_refl _) (Int.le_refl _), hrecord, hparent, hslots⟩

theorem evaluatesAssignment_succ {fuel : Nat} (hevaluates : Evaluates I fuel) (hall : EvaluatesAll I fuel) :
    EvaluatesAssignment I (fuel + 1) := by
  intro depth env x v st S site scope a a' h h' heval hs hscoped henv
  obtain ⟨head, name, value, clauses⟩ := x
  rw [evalAssignment] at heval
  obtain ⟨_, _, htouch, heval⟩ := bind_eq_ok.1 heval
  obtain ⟨hroom, rfl⟩ := touch_eq_ok.1 htouch
  obtain ⟨frame, _, hframe, heval⟩ := bind_eq_ok.1 heval
  obtain ⟨hheap, rfl, rfl⟩ := openFrame_eq_ok.1 hframe
  obtain ⟨_, _, hclauses, hvalue⟩ := bind_eq_ok.1 heval
  obtain ⟨ready, a₁, a₂, a₃, a₄, h₁, hcall, hready, henter, hclausesAt, hvalueAt, hleave⟩ := hs.assignment
  obtain ⟨-, hown, hlt, hvalueScoped, hclausesScoped⟩ := hscoped
  have hstack : I.OnStack (I.base depth) := Image.onStack_of_le hroom (by omega) (by omega)
  have hstack₂ : I.OnStack (I.base depth + 2) := Image.onStack_of_le hroom (by omega) (by omega)
  have hbase : I.base (depth + 2) = I.base depth + 2 := Image.base_add depth 2
  have hslot : I.base (depth + 2) - 2 = I.base depth := by omega
  obtain ⟨S₁, hstate₁, hruns₁, hlater₁, hrecord, hparent, hslots⟩ :=
    exists_entered hroom hheap hcall hready henter
  rw [← hstate₁] at hclauses
  -- the new record encloses clauses and value
  have henv₁ : Encloses I S₁.world I.scopes (.block (clauses.map Assignment.name) S.state.frames.length :: env)
      head.own S.top :=
    .block hown hlt hparent (henv.mono hlater₁.extends_world) (by simpa using hslots)
  obtain ⟨S₂, rfl, hruns₂, hlater₂⟩ := hall hclauses hclausesAt hclausesScoped (by omega)
    (by rw [hslot, hrecord]; exact henv₁)
  rw [hbase] at hruns₂ hlater₂
  have hrecord₂ : S₂.mem (I.base depth) = S.top := by
    rw [hlater₂.mem_onStack hstack (by omega) S₁.ramBegin_le_top, hrecord]
  obtain ⟨S₃, rfl, hruns₃, hlater₃, hrep⟩ := hevaluates hvalue hvalueAt hvalueScoped
    (by rw [hslot, hrecord₂]; exact henv₁.mono hlater₂.extends_world)
  rw [hbase] at hruns₃ hlater₃ hrep
  let S₄ := S₃.store (I.base depth) (S₃.mem (I.base depth + 2)) (Scene.loose_of_onStack hstack)
  have hreturn : Falls I.layout I.scopes head.toSite _ (S₃.data (I.base depth + 2)) (S₄.data (I.base depth)) :=
    falls_return rfl hstack rfl hstack₂
  have hlater := hlater₁.trans hlater₂ (by omega) hlater₁.top_le
  refine ⟨S₄, rfl, (hruns₁.trans hruns₂).trans (hruns₃.trans (hreturn.runs hleave)),
    (hlater.trans hlater₃ (by omega) hlater.top_le).push hstack (Int.le_refl _), ?_⟩
  rw [show S₄.mem (I.base depth) = S₃.mem (I.base depth + 2) from Function.update_self ..]
  exact hrep

/-- An assignment that has a value has room for its frame. -/
theorem room_of_evalAssignment {fuel depth : Nat} {env : Env Site} {x : Assignment Site Header} {v : Value Site}
    {st st' : State Site} (h : evalAssignment I.room fuel depth env x st = .ok (v, st')) :
    depth + 4 ≤ I.room.stack := by
  cases fuel with
  | zero => cases h
  | succ fuel =>
    obtain ⟨head, name, value, clauses⟩ := x
    rw [evalAssignment] at h
    obtain ⟨_, _, htouch, -⟩ := bind_eq_ok.1 h
    exact (touch_eq_ok.1 htouch).1

/-- The code behind an assignment stores the value in slot 0 in the slot of its name. -/
theorem exists_assigned {S : Scene I} {site : Site} {depth a a' : Nat} {name : String} {env : Env Site}
    {v : Value Site} {u : Unit} {st : State Site} (hroom : depth + 1 ≤ I.room.stack)
    (hassign : assign name v env S.state = .ok (u, st))
    (hs : Stands I.layout I.scopes site (concat [copy (rel 0) (.named name)]) a a')
    (henv : Encloses I S.world I.scopes env site.scope (S.mem (I.base depth - 2)))
    (hv : Represents I S.world v (S.mem (I.base depth))) :
    ∃ S' : Scene I, S'.state = st ∧
      I.layout.Runs ((S.data (I.base depth)).config a) ((S'.data (I.base depth)).config a') ∧
      Later (I.base depth) S.top S S' := by
  obtain ⟨names, frame, env', i, rfl, hi, rfl⟩ := assign_eq_ok hassign
  have hscope : I.OnStack (I.base depth - 2) := Image.onStack_of_le hroom (by omega) (by omega)
  have hstack : I.OnStack (I.base depth) := Image.onStack_of_le hroom (by omega) (by omega)
  have hslot : I.base depth + scopeSlot = I.base depth - 2 := rfl
  obtain ⟨y, hy, hword⟩ := names_own hslot hscope henv hi
  have hfalls : Falls I.layout I.scopes site _ (S.data (I.base depth))
      ((S.fill hword hv).data (I.base depth)) :=
    (falls_copy S.loaded (names_slot (Int.add_zero _) hstack).yields hy).cons .nil
  exact ⟨S.fill hword hv, rfl, hfalls.runs hs, .fill hword hv⟩

theorem evaluatesAll_succ {fuel : Nat} (hevaluates : EvaluatesAssignment I fuel) (hall : EvaluatesAll I fuel) :
    EvaluatesAll I (fuel + 1) := by
  intro depth env xs u st S site scope a a' h h' heval hs hscoped hroom henv
  cases xs with
  | nil =>
    rw [evalAll] at heval
    obtain ⟨-, rfl⟩ := pure_eq_ok.1 heval
    rw [hs.assignments_nil]
    exact ⟨S, rfl, .refl _, .refl _ _ _⟩
  | cons x rest =>
    rw [evalAll] at heval
    obtain ⟨v, _, hv, heval⟩ := bind_eq_ok.1 heval
    obtain ⟨_, _, hassign, hrest⟩ := bind_eq_ok.1 heval
    obtain ⟨a₁, a₂, h₁, hxAt, hstore, hrestAt⟩ := hs.assignments_cons
    have hroom' := room_of_evalAssignment hv
    have hscope : I.OnStack (I.base depth - 2) := Image.onStack_of_le hroom' (by omega) (by omega)
    obtain ⟨S₁, rfl, hruns₁, hlater₁, hrep⟩ := hevaluates hv hxAt hscoped.1 henv
    have henv₁ : Encloses I S₁.world I.scopes env scope (S₁.mem (I.base depth - 2)) := by
      rw [hlater₁.mem_onStack hscope (by omega) S.ramBegin_le_top]
      exact henv.mono hlater₁.extends_world
    obtain ⟨S₂, rfl, hruns₂, hlater₂⟩ := exists_assigned (by omega) hassign hstore henv₁ hrep
    have henv₂ : Encloses I S₂.world I.scopes env scope (S₂.mem (I.base depth - 2)) := by
      rw [hlater₂.mem_onStack hscope (by omega) S₁.ramBegin_le_top]
      exact henv₁.mono hlater₂.extends_world
    obtain ⟨S₃, hstate, hruns₃, hlater₃⟩ := hall hrest hrestAt hscoped.2 hroom henv₂
    have hlater := hlater₁.trans hlater₂ (Int.le_refl _) hlater₁.top_le
    exact ⟨S₃, hstate, (hruns₁.trans hruns₂).trans hruns₃, hlater.trans hlater₃ (Int.le_refl _) hlater.top_le⟩

end Lamcode.Simulation
