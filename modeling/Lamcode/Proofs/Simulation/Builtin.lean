import Lamcode.Proofs.Code.Division
import Lamcode.Proofs.Simulation.Expression

/-!
# Lamcode.Proofs.Simulation.Builtin — the code of the built-ins does what they mean

A built-in is entered like a closure, with the record of the call in slot 0. Each level but the last one makes a
closure of the next level over that record; the last level has all arguments in the records around it and runs the body.
For the bodies there is one lemma per shape of code: a value copied, a number computed, a decision, a division.
-/

namespace Lamcode.Simulation

open Layout Emit Operand Reference
open Builtin (slotOf)

variable {I : Image} {S : Scene I} {t : ScopeTable} {depth scope a a' : Nat} {env : Env Site} {v : Value Site}
  {st : State Site}

/-! ## Bodies -/

/-- The code from `a` to `a'` leaves what represents `v` in slot 0 and the address to go on at in slot 1. -/
def Returns (S : Scene I) (b : Int) (a a' : Nat) (v : Value Site) (st : State Site) : Prop :=
  ∃ S' : Scene I, S'.state = st ∧ I.layout.Runs ((S.data b).config a) ((S'.data b).config a') ∧
    Later b S.top S S' ∧ S'.mem (b + 1) = S.mem (b + 1) ∧ Represents I S'.world v (S'.mem b)

theorem Returns.after {b : Int} {a₁ : Nat}
    (hruns : I.layout.Runs ((S.data b).config a) ((S.data b).config a₁)) :
    Returns S b a₁ a' v st → Returns S b a a' v st := by
  rintro ⟨S', hstate, hruns', hrest⟩
  exact ⟨S', hstate, hruns.trans hruns', hrest⟩

/-- A body may go elsewhere in the end. -/
theorem Returns.goto {b : Int} {a₁ a₂ : Nat} {site : Site} {l : Label}
    (hjump : Stands I.layout t site (jump (.addressOf l)) a₁ a₂)
    (hl : I.layout.addresses[l.index]? = some a') : Returns S b a a₁ v st → Returns S b a a' v st := by
  rintro ⟨S', hstate, hruns, hrest⟩
  exact ⟨S', hstate,
    hruns.trans ((exits_jump S'.loaded (yields_addressOf hl) (I.address_lt hl)).runs hjump), hrest⟩

/-- The record of all arguments is in slot 0, and there is room for what bodies need. -/
structure Ready (S : Scene I) (t : ScopeTable) (scope depth : Nat) (env : Env Site) : Prop where
  room : depth + 6 ≤ I.room.stack
  encloses : Encloses I S.world t env scope (S.mem (I.base depth))

namespace Ready

/-- The first six slots of the frame are on the stack. -/
theorem onStack (h : Ready S t scope depth env) {k : Int} (hk : 0 ≤ k) (hlt : k < 6) :
    I.OnStack (I.base depth + k) :=
  Image.onStack_of_le h.room (by omega) (by omega)

theorem onStack_base (h : Ready S t scope depth env) : I.OnStack (I.base depth) :=
  Image.onStack_of_le h.room (by omega) (by omega)

/-- An argument, or a built-in that the body names. -/
theorem names {name : String} (h : Ready S t scope depth env)
    (hres : ∃ res, t.resolve scope name = some res) (hlookup : lookup name env S.state = .ok (v, S.state)) :
    ∃ y, Names I.layout t scope (S.data (I.base depth)) (slotOf name) y ∧
      Represents I S.world v (S.mem y) :=
  (names_var (Int.add_zero _) h.onStack_base h.encloses hres hlookup).2

/-- An argument that is a number. -/
theorem yields_number {name : String} {n : Int} (h : Ready S t scope depth env)
    (hres : ∃ res, t.resolve scope name = some res)
    (hlookup : lookup name env S.state = .ok (.int n, S.state)) :
    Yields I.layout t scope (S.data (I.base depth)) (slotOf name) n := by
  obtain ⟨y, hy, hrep⟩ := h.names hres hlookup
  have hn : S.mem y = n := by
    cases hrep
    rfl
  exact hn ▸ hy.yields

/-- An argument of an instruction that is a number. -/
theorem yields_operand {name : String} {n : Int} {op : Opcode} {os : List Operand}
    (h : Ready S t scope depth env) (hs : Stands I.layout t ⟨scope, .generated⟩ (instruction op os) a a')
    (ho : slotOf name ∈ os) (hlookup : lookup name env S.state = .ok (.int n, S.state)) :
    Yields I.layout t scope (S.data (I.base depth)) (slotOf name) n :=
  h.yields_number (hs.resolves _ ho name (List.mem_singleton_self _)) hlookup

end Ready

/-- What bodies need stays there while they work in the slots from 2 on. -/
theorem Ready.later {S₁ : Scene I} {limit : Int} (hready : Ready S t scope depth env)
    (hlater : Later (I.base depth + 2) limit S S₁) (hlimit : I.ramBegin ≤ limit) :
    Ready S₁ t scope depth env where
  room := hready.room
  encloses := by
    rw [hlater.mem_onStack hready.onStack_base (by omega) hlimit]
    exact hready.encloses.mono hlater.extends_world

/-- A body works in the slots from 2 on, and puts the value in slot 0 in the end. -/
theorem Ready.returns {S₁ : Scene I} {x : Int} (hready : Ready S t scope depth env)
    (hlater : Later (I.base depth + 2) S.top S S₁)
    (hruns : I.layout.Runs ((S.data (I.base depth)).config a)
      (((S₁.store (I.base depth) x (Scene.loose_of_onStack hready.onStack_base)).data
        (I.base depth)).config a'))
    (hv : Represents I S₁.world v x) (hstate : S₁.state = st) : Returns S (I.base depth) a a' v st := by
  refine ⟨S₁.store (I.base depth) x (Scene.loose_of_onStack hready.onStack_base), hstate, hruns,
    (hlater.mono (by omega) (Int.le_refl _)).push hready.onStack_base (Int.le_refl _), ?_, ?_⟩
  · refine (Function.update_of_ne (by omega) ..).trans ?_
    exact hlater.mem_onStack (hready.onStack (by decide) (by decide)) (by omega) S.ramBegin_le_top
  · change Represents I S₁.world v (Function.update S₁.mem (I.base depth) x (I.base depth))
    rw [Function.update_self]
    exact hv

/-- The result of an operation is stored in a slot. -/
theorem falls_compute {site : Site} {b k x v₀ v₁ : Int} {op : Opcode} {f : Int → Int → Int}
    (hf : op.binary? = some f) {o₀ o₁ : Operand} (h₀ : Yields I.layout t site.scope (S.data b) o₀ v₀)
    (h₁ : Yields I.layout t site.scope (S.data b) o₁ v₁) (hx : b + k = x) (hstack : I.OnStack x) :
    Falls I.layout t site (instruction op [o₀, o₁, .rel k]) (S.data b)
      ((S.store x (f v₀ v₁) (Scene.loose_of_onStack hstack)).data b) :=
  falls_binary S.loaded hf h₀ h₁ (names_slot hx hstack)

/-- A body that copies the value of a name. -/
theorem returns_value {name : String} (hready : Ready S t scope depth env)
    (hlookup : lookup name env S.state = .ok (v, S.state))
    (hs : Stands I.layout t ⟨scope, .generated⟩ (copy (slotOf name) (rel 0)) a a') :
    Returns S (I.base depth) a a' v S.state := by
  obtain ⟨y, hy, hrep⟩ := hready.names (hs.resolves_source name (List.mem_singleton_self _)) hlookup
  exact hready.returns (.refl _ _ _)
    ((falls_push hy.yields (Int.add_zero _) hready.onStack_base).runs hs) hrep rfl

/-- A body that computes a number from two operands. -/
theorem returns_number {m n : Int} {op : Opcode} {f : Int → Int → Int} {o₀ o₁ : Operand}
    (hf : op.binary? = some f) (hready : Ready S t scope depth env)
    (hm : Yields I.layout t scope (S.data (I.base depth)) o₀ m)
    (hn : Yields I.layout t scope (S.data (I.base depth)) o₁ n)
    (hs : Stands I.layout t ⟨scope, .generated⟩ (instruction op [o₀, o₁, rel 0]) a a') :
    Returns S (I.base depth) a a' (.int (f m n)) S.state :=
  hready.returns (.refl _ _ _)
    ((falls_compute hf hm hn (Int.add_zero _) hready.onStack_base).runs hs) (.int _) rfl

theorem returns_print {n : Int} (hready : Ready S t scope depth [.param "x" (.int n)])
    (hs : Stands I.layout t ⟨scope, .generated⟩ (Builtin.body .print) a a') :
    Returns S (I.base depth) a a' (.builtin .unit [])
      { S.state with queue := { S.state.queue with written := n :: S.state.queue.written } } := by
  obtain ⟨a₁, hwrite, hcopy⟩ := hs.concat_cons (.instruction _ _)
  obtain ⟨a₂, hcopy, hnil⟩ := hcopy.concat_cons (.copy _ _)
  obtain rfl := hnil.concat_nil
  have hn : Yields I.layout t scope (S.data (I.base depth)) (slotOf "x") n :=
    hready.yields_operand hwrite (by simp) rfl
  let S₁ := S.exchange { S.state.queue with written := n :: S.state.queue.written }
  have hready₁ : Ready S₁ t scope depth _ := ⟨hready.room, hready.encloses⟩
  obtain ⟨y, hy, hrep⟩ := hready₁.names (v := .builtin .unit []) (hcopy.resolves_source "_"
    (List.mem_singleton_self _)) rfl
  have hwrites : I.layout.Runs ((S.data (I.base depth)).config a) ((S₁.data (I.base depth)).config a₁) :=
    (falls_write S.loaded hn).runs hwrite
  exact hready.returns (.exchange _)
    (hwrites.trans ((falls_push hy.yields (Int.add_zero _) hready.onStack_base).runs hcopy)) hrep rfl

theorem returns_input (hready : Ready S t scope depth env) {n : Int} {rest : List Int}
    (hinput : S.state.queue.inputs = n :: rest)
    (hs : Stands I.layout t ⟨scope, .generated⟩ (Builtin.body .input) a a') :
    Returns S (I.base depth) a a' (.int n)
      { S.state with queue := { S.state.queue with inputs := rest } } := by
  let S₁ := S.exchange { S.state.queue with inputs := rest }
  have hlater : Later (I.base depth + 2) S.top S S₁ := .exchange _
  exact hready.returns hlater
    ((falls_read S.loaded (names_slot (Int.add_zero _) hready.onStack_base) hinput).runs hs) (.int n) rfl

theorem returns_sub {m n : Int} (hready : Ready S t scope depth [.param "b" (.int n), .param "a" (.int m)])
    (hs : Stands I.layout t ⟨scope, .generated⟩ (Builtin.body .sub) a a') :
    Returns S (I.base depth) a a' (.int (m - n)) S.state := by
  obtain ⟨a₁, hnegate, hadd⟩ := hs.concat_cons (.instruction _ _)
  obtain ⟨_, hadd, hnil⟩ := hadd.concat_cons (.instruction _ _)
  obtain rfl := hnil.concat_nil
  have hstack : I.OnStack (I.base depth + 2) := hready.onStack (by decide) (by decide)
  let S₁ := S.store (I.base depth + 2) (n * -1) (Scene.loose_of_onStack hstack)
  have hlater : Later (I.base depth + 2) S.top S S₁ := (Later.refl _ _ _).push hstack (Int.le_refl _)
  have hready₁ := hready.later hlater S.ramBegin_le_top
  have hn : Yields I.layout t scope (S.data (I.base depth)) (slotOf "b") n :=
    hready.yields_operand hnegate (by simp) rfl
  have hm : Yields I.layout t scope (S₁.data (I.base depth)) (slotOf "a") m :=
    hready₁.yields_operand hadd (by simp) rfl
  have hnegates : I.layout.Runs ((S.data (I.base depth)).config a) ((S₁.data (I.base depth)).config a₁) :=
    (falls_compute rfl hn (yields_int (-1)) rfl hstack).runs hnegate
  have hslot : S₁.mem (I.base depth + 2) = n * -1 := Function.update_self ..
  have hadds : I.layout.Runs ((S₁.data (I.base depth)).config a₁)
      (((S₁.store (I.base depth) (m + n * -1) (Scene.loose_of_onStack hready.onStack_base)).data
        (I.base depth)).config a') :=
    (falls_compute rfl hm (yields_slot rfl hstack hslot) (Int.add_zero _) hready.onStack_base).runs hadd
  rw [show m - n = m + n * -1 by omega]
  exact hready.returns hlater (hnegates.trans hadds) (.int _) rfl

/-! ## Elements of tuples -/

/-- The word `i` words behind the one that a variable points at. -/
theorem names_element {name : String} {d : Data} {index : Operand} {L : Layout} {y p i : Int}
    (hy : Names L t scope d (slotOf name) y) (hp : d.mem y = p) (hindex : Yields L t scope d index i)
    (hfree : L.Free (p + i)) : Names L t scope d (Builtin.element (slotOf name) index) (p + i) := by
  obtain ⟨mode, raw, hmeans, hstores⟩ := hy
  obtain ⟨mode', raw', hmeans', hreads⟩ := hindex
  obtain rfl : mode = .position := by
    cases hmeans <;> rfl
  obtain ⟨hraw, rfl⟩ := hstores
  exact ⟨.position, _, .relabel (.offset (.deref hmeans ⟨hraw, hp⟩) hmeans' hreads), hfree, rfl⟩

/-- A number and the value of a variable, added when the operand is made. -/
theorem yields_behind {name : String} {d : Data} {L : Layout} {k n : Int}
    (hn : Yields L t scope d (slotOf name) n) :
    Yields L t scope d (.offset (.int k) (slotOf name)) (k + n) := by
  obtain ⟨mode, raw, hmeans, hreads⟩ := hn
  have hint : Means L t scope d.base d.mem (.int k) .immediate k := .const rfl
  exact ⟨.immediate, _, .offset hint hmeans hreads, rfl⟩

theorem returns_element {name : String} {items : List (Value Site)} {index : Operand} {i : Nat}
    (hready : Ready S t scope depth env) (hlookup : lookup name env S.state = .ok (.tuple items, S.state))
    (hindex : Yields I.layout t scope (S.data (I.base depth)) index (1 + i)) (hv : items[i]? = some v)
    (hs : Stands I.layout t ⟨scope, .generated⟩ (copy (Builtin.element (slotOf name) index) (rel 0)) a a') :
    Returns S (I.base depth) a a' v S.state := by
  obtain ⟨y, hy, hrep⟩ := hready.names (hs.resolves_source name (List.mem_append_left _ (by simp [slotOf, vars])))
    hlookup
  generalize hp : S.mem y = p at hrep
  cases hrep with
  | tuple _ hitems =>
    obtain ⟨w, hw, hrep⟩ := hitems.getElem? hv
    rw [Int.add_assoc] at hw
    have helement := names_element hy hp hindex (S.world.free hw)
    refine hready.returns (.refl _ _ _)
      ((falls_push helement.yields (Int.add_zero _) hready.onStack_base).runs hs) ?_ rfl
    change Represents I S.world v (S.mem (p + (1 + i)))
    rw [S.mem_of_fixed hw]
    exact hrep

/-! ## Decisions -/

/-- Whether a test of two numbers comes out true. -/
def holds (test : Builtin.Test) (m n : Int) : Bool :=
  match test with
  | .equal => m == n
  | .less => decide (m < n)

/-- A decision goes to its label if the test comes out as wanted. -/
theorem decision_runs {site : Site} {test : Builtin.Test} {wanted : Bool} {d : Data} {L : Layout} {m n : Int}
    {flag yes : Label} {a a₁ a₂ b : Nat} (hmem : L.Loaded d.mem)
    (hm : Yields L t site.scope d (slotOf "a") m) (hn : Yields L t site.scope d (slotOf "b") n)
    (hyes : L.addresses[yes.index]? = some b) (hlt : b < Memory.addressLimit)
    (htest : Stands L t site (match test with
      | .equal => equals (slotOf "a") (slotOf "b") (.wordAt flag)
      | .less => lessThan (slotOf "a") (slotOf "b") (.wordAt flag)) a a₁)
    (hbranch : Stands L t site (if wanted then jumpIfTrue (.patched .immediate flag) (.addressOf yes)
      else jumpIfFalse (.patched .immediate flag) (.addressOf yes)) a₁ a₂) :
    L.Runs (d.config a) (d.config (if holds test m n == wanted then b else a₂)) := by
  have hbranch' : Stands L t site (instruction (Machine.jumpOn !wanted)
      [.patched .immediate flag, .addressOf yes]) a₁ a₂ := by
    cases wanted <;> exact hbranch
  have hflag : ∀ outcome : Bool,
      (if (Machine.flag outcome == 0) = !wanted then b else a₂) = if outcome == wanted then b else a₂ := by
    intro outcome
    cases outcome <;> cases wanted <;> rfl
  rw [← hflag]
  cases test with
  | equal => exact Stands.branch hmem rfl hm hn hyes hlt _ htest hbranch'
  | less => exact Stands.branch hmem rfl hm hn hyes hlt _ htest hbranch'

theorem returns_compare {test : Builtin.Test} {wanted : Bool} {m n : Int}
    (hready : Ready S t scope depth [.param "b" (.int n), .param "a" (.int m)])
    (hs : Stands I.layout t ⟨scope, .generated⟩ (Builtin.compare test wanted) a a') :
    Returns S (I.base depth) a a' (ofBool (holds test m n == wanted)) S.state := by
  obtain ⟨flag, hs⟩ := hs.fresh
  obtain ⟨yes, hs⟩ := hs.fresh
  obtain ⟨done, hs⟩ := hs.fresh
  obtain ⟨a₁, htest, hs⟩ := hs.concat_cons (by cases test <;> exact .instruction _ _)
  obtain ⟨a₂, hbranch, hs⟩ := hs.concat_cons (by cases wanted <;> exact .instruction _ _)
  obtain ⟨a₃, hfalse, hs⟩ := hs.concat_cons (.copy _ _)
  obtain ⟨a₄, hjump, hs⟩ := hs.concat_cons (.jump _)
  obtain ⟨a₅, hlabel, hs⟩ := hs.concat_cons (.placeLabel _)
  obtain ⟨a₆, htrue, hend⟩ := hs.concat_cons (.copy _ _)
  obtain ⟨a₇, hlabel', hnil⟩ := hend.concat_cons (.placeLabel _)
  obtain rfl := hnil.concat_nil
  obtain ⟨rfl, hyes⟩ := hlabel.placeLabel
  obtain ⟨rfl, hdone⟩ := hlabel'.placeLabel
  have hm : Yields I.layout t scope (S.data (I.base depth)) (slotOf "a") m := by
    cases test <;> exact hready.yields_operand htest (by simp) rfl
  have hn : Yields I.layout t scope (S.data (I.base depth)) (slotOf "b") n := by
    cases test <;> exact hready.yields_operand htest (by simp) rfl
  have hruns := decision_runs S.loaded hm hn hyes (I.address_lt hyes) htest hbranch
  cases hdecision : holds test m n == wanted with
  | true =>
    rw [hdecision, if_pos rfl] at hruns
    exact .after hruns (returns_value hready rfl htrue)
  | false =>
    rw [hdecision, if_neg Bool.false_ne_true] at hruns
    exact .after hruns (.goto hjump hdone (returns_value hready rfl hfalse))

/-! ## Division -/

/-- A division puts its numbers into the slots from 2 on. -/
def Ready.divide (hready : Ready S t scope depth env) (w : Division) : Scene I :=
  (((S.store (I.base depth + 2) w.remainder (Scene.loose_of_onStack (hready.onStack (by decide) (by decide)))).store
    (I.base depth + 3) w.negated (Scene.loose_of_onStack (hready.onStack (by decide) (by decide)))).store
    (I.base depth + 4) w.quotient (Scene.loose_of_onStack (hready.onStack (by decide) (by decide)))).store
    (I.base depth + 5) w.divisor (Scene.loose_of_onStack (hready.onStack (by decide) (by decide)))

theorem Ready.later_divide (hready : Ready S t scope depth env) (w : Division) :
    Later (I.base depth + 2) S.top S (hready.divide w) :=
  ((((Later.refl _ _ _).push (hready.onStack (by decide) (by decide)) (by omega)).push
    (hready.onStack (by decide) (by decide)) (by omega)).push
    (hready.onStack (by decide) (by decide)) (by omega)).push (hready.onStack (by decide) (by decide)) (by omega)

theorem Ready.roomy (hready : Ready S t scope depth env) : I.layout.Roomy (I.base depth) where
  free hk hlt := (hready.onStack hk hlt).free
  frozen {k} hk hlt := by
    rcases hx : I.layout.frozen (I.base depth + k) with _ | v
    · rfl
    · exact (S.world.not_onStack (S.world.of_frozen hx) (hready.onStack hk hlt)).elim

theorem returns_division {m n result w : Int}
    (hready : Ready S t scope depth [.param "a" (.int m), .param "b" (.int n)]) (hm : 0 ≤ m) (hn : 0 < n)
    (hresult : 0 ≤ result ∧ result < 6)
    (hw : (hready.divide (.done m n)).mem (I.base depth + result) = w)
    (hs : Stands I.layout t ⟨scope, .generated⟩ (Builtin.longDivision result) a a') :
    Returns S (I.base depth) a a' (.int w) S.state := by
  have hnumber : ∀ {name : String} {v : Int} (w : Division), (∃ res, t.resolve scope name = some res) →
      lookup name [.param "a" (.int m), .param "b" (.int n)] S.state = .ok (.int v, S.state) →
      Yields I.layout t scope ((S.data (I.base depth)).dividing w) (slotOf name) v := fun w hres hlookup =>
    (hready.later (hready.later_divide w) S.ramBegin_le_top).yields_number hres hlookup
  obtain ⟨hresA, hresB⟩ : (∃ res, t.resolve scope "a" = some res) ∧ ∃ res, t.resolve scope "b" = some res := by
    obtain ⟨_, hs⟩ := hs.fresh
    obtain ⟨_, hs⟩ := hs.fresh
    obtain ⟨_, hs⟩ := hs.fresh
    obtain ⟨_, hcopy, hs⟩ := hs.concat_cons (.copy _ _)
    obtain ⟨_, hnegate, -⟩ := hs.concat_cons (.instruction _ _)
    exact ⟨hcopy.resolves_source "a" (List.mem_singleton_self _),
      hnegate.resolves (slotOf "b") (by simp) "b" (List.mem_singleton_self _)⟩
  have hruns := longDivision_runs (d := S.data (I.base depth)) S.loaded hready.roomy I.address_lt
    (fun w => hnumber w hresA rfl) (fun w => hnumber w hresB rfl) hm hn hresult hs
  refine hready.returns (hready.later_divide (.done m n)) (x := w) ?_ (.int w) rfl
  rw [← hw]
  exact hruns

/-! ## All of them -/

/-- The body of a built-in leaves what the built-in means for its arguments. -/
theorem returns_body {b : Builtin} {vs : List (Value Site)}
    (hready : Ready S t scope depth (bindAll b.params vs []))
    (hperform : perform b vs S.state = .ok (v, st))
    (hs : Stands I.layout t ⟨scope, .generated⟩ b.body a a') :
    Returns S (I.base depth) a a' v st := by
  unfold perform at hperform
  split at hperform
  · cases hperform
    exact returns_print hready hs
  · cases hperform
    exact returns_number rfl hready (hready.yields_operand hs (by simp) rfl) (yields_int 1) hs
  · cases hperform
    exact returns_number rfl hready (hready.yields_operand hs (by simp) rfl)
      (hready.yields_operand hs (by simp) rfl) hs
  · cases hperform
    exact returns_number rfl hready (hready.yields_operand hs (by simp) rfl)
      (hready.yields_operand hs (by simp) rfl) hs
  · cases hperform
    exact returns_value hready rfl hs
  · cases hperform
    exact returns_value hready rfl hs
  · cases hperform
    exact returns_value hready rfl hs
  · next m n =>
    cases hperform
    rw [show (m == n) = (holds .equal m n == true) from (beq_true _).symm]
    exact returns_compare hready hs
  · next m n =>
    cases hperform
    rw [show (m != n) = (holds .equal m n == false) from (beq_false _).symm]
    exact returns_compare hready hs
  · next m n =>
    cases hperform
    rw [show decide (m < n) = (holds .less m n == true) from (beq_true _).symm]
    exact returns_compare hready hs
  · cases hperform
    exact returns_sub hready hs
  · next pos items =>
    obtain ⟨rfl, i, rfl, hv⟩ := element_eq_ok hperform
    have hpos : ∃ res, t.resolve scope "pos" = some res :=
      hs.resolves_source "pos" (by simp [Builtin.element, toPointer, slotOf, Operand.vars])
    exact returns_element hready rfl (yields_behind (hready.yields_number hpos rfl)) hv hs
  · next items =>
    obtain ⟨rfl, i, hi, hv⟩ := element_eq_ok hperform
    obtain rfl : i = 0 := by omega
    exact returns_element hready rfl (yields_int 1) hv hs
  · next items =>
    obtain ⟨rfl, i, hi, hv⟩ := element_eq_ok hperform
    obtain rfl : i = 1 := by omega
    exact returns_element hready rfl (yields_int 2) hv hs
  · next n m =>
    obtain ⟨rfl, hm, hn, rfl⟩ := divide_eq_ok hperform
    exact returns_division hready hm hn (by decide) (Data.mem_dividing_remainder (S.data _) _) hs
  · next n m =>
    obtain ⟨rfl, hm, hn, rfl⟩ := divide_eq_ok hperform
    exact returns_division hready hm hn (by decide) (Data.mem_dividing_quotient (S.data _) _) hs
  · obtain ⟨n, rest, hinput, rfl, rfl⟩ := input_eq_ok hperform
    exact returns_input hready hinput hs
  · cases hperform

/-! ## Levels -/

/-- The record of a call encloses a level, in the table that the level was written in. -/
theorem encloses_level {W : World I} {params rest : List String} {args : List (Value Site)} {x : Value Site}
    {param : String} {outer : Nat} {r z captured : Int}
    (henv : Encloses I W t (bindAll params args []) outer captured)
    (hparams : params.drop args.length = param :: rest) (hr : W.word r = some (.fixed captured))
    (hz : W.word (r + 1) = some (.fixed z)) (hx : Represents I W x z) :
    Encloses I W ((t.child outer).2.bind t.size param) (bindAll params (args ++ [x]) []) t.size r := by
  have houter : outer < t.size := henv.lt_size
  rw [bindAll_append x hparams]
  refine .param ?_ houter hr (henv.retable fun s hs => ?_) hz hx
  · rw [ScopeTable.get_bind_self _ _ (by simp), ScopeTable.get_child_self]
    rfl
  · rw [ScopeTable.get_bind_of_ne _ _ (by omega), ScopeTable.get_child_of_lt _ (by omega)]

/-- A level that is not the last one leaves a closure of the next level over its own record. -/
theorem exists_partial {S : Scene I} {site : Site} {below : Label} {entry resume b : Nat} {r : Int}
    (hroom : depth + 6 ≤ I.room.stack) (hheap : S.state.heap + 2 ≤ I.room.heap)
    (hbelow : I.layout.addresses[below.index]? = some b) (hrecord : S.mem (I.base depth) = r)
    (hresume : S.mem (I.base depth + 1) = resume) (hlt : resume < Memory.addressLimit)
    (hs : Stands I.layout t site (concat [copy (.wordAt .ramPointer) (rel 2), writeToRam (.addressOf below),
      writeToRam (rel 0), copy (rel 2) (rel 0), jump (rel 1)]) entry a) :
    ∃ S' : Scene I, S'.state = { S.state with heap := S.state.heap + 2 } ∧
      I.layout.Runs ((S.data (I.base depth)).config entry) ((S'.data (I.base depth)).config resume) ∧
      Later (I.base depth) S.top S S' ∧ S'.mem (I.base depth) = S.top ∧
      S'.world.word S.top = some (.fixed b) ∧ S'.world.word (S.top + 1) = some (.fixed r) := by
  have hstack : I.OnStack (I.base depth) := Image.onStack_of_le hroom (by omega) (by omega)
  have hstack₁ : I.OnStack (I.base depth + 1) := Image.onStack_of_le hroom (by omega) (by omega)
  have hstack₂ : I.OnStack (I.base depth + 2) := Image.onStack_of_le hroom (by omega) (by omega)
  let S₁ := S.store (I.base depth + 2) S.top (Scene.loose_of_onStack hstack₂)
  have hlater₁ : Later (I.base depth) S.top S S₁ := (Later.refl _ _ _).push hstack₂ (by omega)
  have hrecord₁ : S₁.mem (I.base depth) = r := (Function.update_of_ne (by omega) ..).trans hrecord
  obtain ⟨S₂, hstate, hpair, hkept, hlater₂, hword, hword'⟩ :=
    exists_pair (S := S₁) t site (yields_addressOf hbelow) (Int.add_zero _) hstack hrecord₁ hheap
  let S₃ := S₂.store (I.base depth) (S₂.mem (I.base depth + 2)) (Scene.loose_of_onStack hstack)
  have hresume₃ : S₃.mem (I.base depth + 1) = resume := by
    refine (Function.update_of_ne (by omega) ..).trans ((hkept _ hstack₁).trans ?_)
    exact (Function.update_of_ne (by omega) ..).trans hresume
  have hcopy : Falls I.layout t site (concat [copy (.wordAt .ramPointer) (rel 2)]) (S.data (I.base depth))
      (S₁.data (I.base depth)) := (falls_push yields_cursor rfl hstack₂).cons .nil
  have hcopy' : Falls I.layout t site (concat [copy (rel 2) (rel 0)]) (S₂.data (I.base depth))
      (S₃.data (I.base depth)) :=
    (falls_push (names_slot rfl hstack₂).yields (Int.add_zero _) hstack).cons .nil
  have hexits : Exits I.layout t site _ (S.data (I.base depth)) ((S₃.data (I.base depth)).config resume) :=
    .append hcopy (.append hpair (.append hcopy' (exits_back rfl hstack₁ hresume₃ hlt)))
  refine ⟨S₃, hstate, hexits.runs hs, ?_, ?_, hword, hword'⟩
  · exact (hlater₁.trans (hlater₂ _ _ (Int.le_refl _)) (Int.le_refl _) (Int.le_refl _)).push hstack
      (Int.le_refl _)
  · exact (Function.update_self ..).trans ((hkept _ hstack₂).trans (Function.update_self ..))

/-- A built-in that is entered does what the evaluator does with one more argument. -/
theorem applies_builtin {b : Builtin} {args : List (Value Site)} {x : Value Site} {y z r captured : Int}
    {entry resume : Nat} (happly : applyBuiltin I.room depth b args x S.state = .ok (v, st))
    (hf : Represents I S.world (.builtin b args) y) (hentry : S.world.word y = some (.fixed entry))
    (hcaptured : S.world.word (y + 1) = some (.fixed captured))
    (hr : S.world.word r = some (.fixed captured)) (hz : S.world.word (r + 1) = some (.fixed z))
    (hx : Represents I S.world x z) (hrecord : S.mem (I.base depth) = r)
    (hresume : S.mem (I.base depth + 1) = resume) (hlt : resume < Memory.addressLimit) :
    Delivers S (I.base depth) entry resume v st := by
  unfold applyBuiltin at happly
  obtain ⟨_, _, htouch, happly⟩ := bind_eq_ok.1 happly
  obtain ⟨hroom, rfl⟩ := touch_eq_ok.1 htouch
  cases hf with
  | unit _ hparams =>
    rw [hparams] at happly
    cases happly
  | @builtin _ _ _ _ entry' outer t param rest hy _ hy' henv hparams hlevels =>
    cases hy.symm.trans hentry
    cases hy'.symm.trans hcaptured
    have henv' := encloses_level henv hparams hr hz hx
    have hlength : b.params.length = args.length + 1 + rest.length := by
      have := congrArg List.length hparams
      rw [List.length_drop, List.length_cons] at this
      omega
    cases rest with
    | nil =>
      rw [List.length_nil, Nat.add_zero] at hlength
      rw [hlength, if_neg (Nat.lt_irrefl _), if_pos rfl] at happly
      obtain ⟨site, a, a', hbody, hback⟩ := hlevels
      obtain ⟨S₁, hstate, hruns, hlater, hresume₁, hrep⟩ := returns_body ⟨hroom, hrecord.symm ▸ henv'⟩ happly hbody
      have hstack₁ : I.OnStack (I.base depth + 1) := Image.onStack_of_le hroom (by omega) (by omega)
      have hreturn := (exits_back (S := S₁) rfl hstack₁ (hresume₁.trans hresume) hlt).runs hback
      exact ⟨S₁, hstate, hruns.trans hreturn, hlater, hrep⟩
    | cons next rest =>
      rw [if_pos (by rw [hlength, List.length_cons]; omega)] at happly
      obtain ⟨_, _, hallocate, happly⟩ := bind_eq_ok.1 happly
      obtain ⟨hheap, rfl⟩ := allocate_eq_ok.1 hallocate
      obtain ⟨rfl, rfl⟩ := pure_eq_ok.1 happly
      obtain ⟨site, below, a, b', hbelow, hcode, hlevels⟩ := hlevels
      obtain ⟨S₁, hstate, hruns, hlater, hvalue, hword, hword'⟩ :=
        exists_partial hroom hheap hbelow hrecord hresume hlt hcode
      refine ⟨S₁, hstate, hruns, hlater, ?_⟩
      rw [hvalue]
      refine .builtin hword (I.address_lt hbelow) hword' (henv'.mono hlater.extends_world) ?_ hlevels
      rw [List.length_append, ← List.drop_drop, hparams]
      rfl

end Lamcode.Simulation
