import Lamcode.Proofs.Simulation.World

/-!
# Lamcode.Proofs.Simulation.Scene — a moment of a run

A `Scene` puts the memory of a machine and the state of the evaluator side by side at one moment: fixed words hold
what the world says, slots hold what represents the content of the frame, the cursor points behind the heap in use,
and all heap behind it is still zero. Everything that compiled code does to memory is one of a few operations on
scenes, and each of them builds the next scene with its proofs.

`Later` relates two scenes: what a piece of code may have changed in between, and so what its surroundings can rely on.
-/

namespace Lamcode.Simulation

open Layout Emit Operand Reference

variable {I : Image}

/-- Memory, evaluator and world at one moment. -/
structure Scene (I : Image) where
  world : World I
  state : State Site
  mem : Int → Int
  mem_of_fixed : ∀ {x v}, world.word x = some (.fixed v) → mem x = v
  slot_of_word : ∀ {x k i}, world.word x = some (.slot k i) →
    ∃ slots v, state.frames[k]? = some slots ∧ slots[i]? = some v ∧ Represents I world v (mem x)
  mem_cursor : mem I.cursor = I.ramBegin + state.heap
  heap_le : state.heap ≤ I.room.heap
  unused : ∀ {x : Int}, I.ramBegin + state.heap ≤ x → world.word x = none ∧ mem x = 0

namespace Scene

variable (S : Scene I)

/-- The address of the next free heap word. -/
def top : Int :=
  I.ramBegin + S.state.heap

/-- What the machine has, with the base `b`. -/
def data (b : Int) : Data :=
  ⟨b, S.mem, S.state.queue⟩

/-- A data word below the top of the heap that nothing is known of. -/
structure Loose (x : Int) : Prop where
  word_eq : S.world.word x = none
  ne_cursor : x ≠ I.cursor
  free : I.layout.Free x
  lt_top : x < S.top

variable {S}

theorem loaded : I.layout.Loaded S.mem :=
  fun _ _ h => S.mem_of_fixed (S.world.of_frozen h)

theorem mem_cursor_eq_top : S.mem I.cursor = S.top :=
  S.mem_cursor

theorem ramBegin_le_top : I.ramBegin ≤ S.top := by
  unfold top
  omega

theorem word_top : S.world.word S.top = none :=
  (S.unused (Int.le_refl _)).1

theorem loose_of_onStack {x : Int} (h : I.OnStack x) : S.Loose x where
  word_eq := by
    rcases hx : S.world.word x with _ | c
    · rfl
    · exact (S.world.not_onStack hx h).elim
  ne_cursor := by
    have := h.1
    have := I.cursor_lt
    omega
  free := h.free
  lt_top := by
    have := h.2
    unfold top
    omega

theorem free_top (h : S.state.heap < I.room.heap) : I.layout.Free S.top := by
  have hstack := I.stack_fits
  have hheap := I.heap_fits
  exact Image.free_of_le (by unfold top; omega) (by unfold top; omega)

theorem top_ne_cursor : S.top ≠ I.cursor := by
  have := I.cursor_lt
  have := I.stack_fits
  unfold top
  omega

theorem not_onStack_of_le {x : Int} (h : S.top ≤ x) : ¬ I.OnStack x := by
  intro hx
  have := hx.2
  unfold top at h
  omega

end Scene

/-! ## New words in the world -/

/-- Words that can be added to what is known: new ones, that are neither on the stack nor the cursor, with
slots that no word had so far. -/
structure World.Admits (W : World I) (new : Int → Option Content) : Prop where
  word_eq : ∀ {x c}, new x = some c → W.word x = none
  free : ∀ {x c}, new x = some c → I.layout.Free x
  ne_cursor : ∀ {x : Int} {c}, new x = some c → x ≠ I.cursor
  not_onStack : ∀ {x c}, new x = some c → ¬ I.OnStack x
  slot_unique : ∀ {x y k i}, new x = some (.slot k i) → new y = some (.slot k i) → x = y
  slot_new : ∀ {x y k i}, new x = some (.slot k i) → W.word y ≠ some (.slot k i)

theorem World.or_eq_some {W : World I} {new : Int → Option Content} {x : Int} {c : Content} :
    (W.word x).or (new x) = some c → W.word x = some c ∨ new x = some c := by
  intro h
  rcases hx : W.word x with _ | c'
  · rw [hx] at h
    exact .inr h
  · rw [hx] at h
    exact .inl h

/-- The world that knows these words too. -/
def World.learn (W : World I) (new : Int → Option Content) (h : W.Admits new) : World I where
  word x := (W.word x).or (new x)
  of_frozen hx := by rw [W.of_frozen hx, Option.some_or]
  free hx := (or_eq_some hx).elim W.free h.free
  ne_cursor hx := (or_eq_some hx).elim W.ne_cursor h.ne_cursor
  not_onStack hx := (or_eq_some hx).elim W.not_onStack h.not_onStack
  slot_unique := by
    intro x y k i hx hy
    rcases or_eq_some hx with hx | hx <;> rcases or_eq_some hy with hy | hy
    · exact W.slot_unique hx hy
    · exact (h.slot_new hy hx).elim
    · exact (h.slot_new hx hy).elim
    · exact h.slot_unique hx hy

theorem World.extends_learn {W : World I} {new : Int → Option Content} (h : W.Admits new) :
    W.Extends (W.learn new h) := by
  intro x c hx
  change (W.word x).or (new x) = some c
  rw [hx, Option.some_or]

theorem World.word_learn {W : World I} {new : Int → Option Content} (h : W.Admits new) {x : Int}
    {c : Content} (hx : new x = some c) : (W.learn new h).word x = some c := by
  change (W.word x).or (new x) = some c
  rw [h.word_eq hx, Option.none_or, hx]

namespace Scene

variable (S : Scene I)

/-! ## What code does to a scene -/

/-- A word that nothing is known of is written. -/
def store (x v : Int) (hx : S.Loose x) : Scene I where
  world := S.world
  state := S.state
  mem := Function.update S.mem x v
  mem_of_fixed := by
    intro y w h
    have hne : y ≠ x := by
      rintro rfl
      rw [hx.word_eq] at h
      cases h
    rw [Function.update_of_ne hne, S.mem_of_fixed h]
  slot_of_word := by
    intro y k i h
    have hne : y ≠ x := by
      rintro rfl
      rw [hx.word_eq] at h
      cases h
    rw [Function.update_of_ne hne]
    exact S.slot_of_word h
  mem_cursor := by rw [Function.update_of_ne hx.ne_cursor.symm, S.mem_cursor]
  heap_le := S.heap_le
  unused := by
    intro y hy
    have hne : y ≠ x := by
      have hlt := hx.lt_top
      unfold top at hlt
      omega
    rw [Function.update_of_ne hne]
    exact S.unused hy

variable {S} in
theorem Loose.store {x y v : Int} (hx : S.Loose x) (hy : S.Loose y) : (S.store y v hy).Loose x :=
  ⟨hx.word_eq, hx.ne_cursor, hx.free, hx.lt_top⟩

/-- What is true of words below the top of the heap: that they hold these numbers, or are slots. -/
structure Admits (new : Int → Option Content) : Prop extends S.world.Admits new where
  mem_of_fixed : ∀ {x v}, new x = some (.fixed v) → S.mem x = v
  slot_of_word : ∀ {x k i}, new x = some (.slot k i) → ∃ slots v, S.state.frames[k]? = some slots ∧
    slots[i]? = some v ∧ Represents I S.world v (S.mem x)
  lt_top : ∀ {x c}, new x = some c → x < S.top

/-- More is known of words below the top of the heap. -/
def learn (new : Int → Option Content) (h : S.Admits new) : Scene I where
  world := S.world.learn new h.toAdmits
  state := S.state
  mem := S.mem
  mem_of_fixed hx := (World.or_eq_some hx).elim S.mem_of_fixed h.mem_of_fixed
  slot_of_word := by
    intro x k i hx
    obtain ⟨slots, v, hslots, hv, hrep⟩ := (World.or_eq_some hx).elim S.slot_of_word h.slot_of_word
    exact ⟨slots, v, hslots, hv, hrep.mono (World.extends_learn h.toAdmits)⟩
  mem_cursor := S.mem_cursor
  heap_le := S.heap_le
  unused := by
    intro x hx
    refine ⟨?_, (S.unused hx).2⟩
    rcases hword : (S.world.learn new h.toAdmits).word x with _ | c
    · rfl
    · rcases World.or_eq_some hword with hc | hc
      · rw [(S.unused hx).1] at hc
        cases hc
      · have := h.lt_top hc
        unfold top at this
        omega

/-- The heap grows by words that nothing is known of yet. -/
def reserve (n : Nat) (hn : S.state.heap + n ≤ I.room.heap) : Scene I where
  world := S.world
  state := { S.state with heap := S.state.heap + n }
  mem := Function.update S.mem I.cursor (S.mem I.cursor + n)
  mem_of_fixed := by
    intro y w h
    rw [Function.update_of_ne (S.world.ne_cursor h), S.mem_of_fixed h]
  slot_of_word := by
    intro y k i h
    rw [Function.update_of_ne (S.world.ne_cursor h)]
    exact S.slot_of_word h
  mem_cursor := by
    rw [Function.update_self, S.mem_cursor]
    push_cast
    omega
  heap_le := hn
  unused := by
    intro y hy
    have hcursor : y ≠ I.cursor := by
      have := I.cursor_lt
      have := I.stack_fits
      push_cast at hy
      omega
    rw [Function.update_of_ne hcursor]
    exact S.unused (by push_cast at hy; omega)

/-- A frame is opened; it has no words yet. -/
def pushFrame (slots : List (Value Site)) : Scene I where
  world := S.world
  state := { S.state with frames := S.state.frames ++ [slots] }
  mem := S.mem
  mem_of_fixed := S.mem_of_fixed
  slot_of_word := by
    intro x k i hx
    obtain ⟨slots', v, hslots, hv, hrep⟩ := S.slot_of_word hx
    have hk := (List.getElem?_eq_some_iff.1 hslots).1
    exact ⟨slots', v, (List.getElem?_append_left hk).trans hslots, hv, hrep⟩
  mem_cursor := S.mem_cursor
  heap_le := S.heap_le
  unused := S.unused

/-- Only what was read and written changes. -/
def exchange (q : Queue) : Scene I :=
  { S with state := { S.state with queue := q } }

/-- A slot of a frame is filled. -/
def fill {x : Int} {k i : Nat} (hx : S.world.word x = some (.slot k i)) {v : Value Site} {y : Int}
    (hv : Represents I S.world v y) : Scene I where
  world := S.world
  state := { S.state with frames := S.state.frames.modify k (·.set i v) }
  mem := Function.update S.mem x y
  mem_of_fixed := by
    intro z w h
    have hne : z ≠ x := by
      rintro rfl
      rw [hx] at h
      cases h
    rw [Function.update_of_ne hne, S.mem_of_fixed h]
  slot_of_word := by
    intro z k' i' h
    obtain ⟨slots, u, hslots, hu, hrep⟩ := S.slot_of_word h
    by_cases hk : k = k'
    · subst hk
      rw [List.getElem?_modify_eq, hslots]
      by_cases hi : i = i'
      · subst hi
        obtain rfl := S.world.slot_unique hx h
        refine ⟨slots.set i v, v, rfl, ?_, by rwa [Function.update_self]⟩
        exact List.getElem?_set_self (List.getElem?_eq_some_iff.1 hu).1
      · have hne : z ≠ x := by
          rintro rfl
          rw [hx] at h
          cases h
          exact hi rfl
        refine ⟨slots.set i v, u, rfl, ?_, by rwa [Function.update_of_ne hne]⟩
        rw [List.getElem?_set_ne hi, hu]
    · have hne : z ≠ x := by
        rintro rfl
        rw [hx] at h
        cases h
        exact hk rfl
      exact ⟨slots, u, (List.getElem?_modify_ne _ _ hk).trans hslots, hu,
        by rwa [Function.update_of_ne hne]⟩
  mem_cursor := by rw [Function.update_of_ne (S.world.ne_cursor hx).symm, S.mem_cursor]
  heap_le := S.heap_le
  unused := by
    intro z hz
    have hne : z ≠ x := by
      rintro rfl
      rw [(S.unused hz).1] at hx
      cases hx
    rw [Function.update_of_ne hne]
    exact S.unused hz

end Scene

/-! ## Between two scenes -/

/-- What code that uses the stack from `b` on and the heap from `limit` on may have changed: apart from slots, no word
elsewhere, and no word below `limit` has got a use. -/
structure Later (b limit : Int) (S S' : Scene I) : Prop where
  heap_le : S.state.heap ≤ S'.state.heap
  extends_world : S.world.Extends S'.world
  word_eq : ∀ {x : Int}, x < limit → S'.world.word x = S.world.word x
  mem_eq : ∀ {x : Int}, x ≠ I.cursor → x < b ∨ I.ramBegin ≤ x → x < limit →
    (∀ k i, S.world.word x ≠ some (.slot k i)) → S'.mem x = S.mem x

namespace Later

variable {b b' limit limit' : Int} {S S' S'' : Scene I}

theorem refl (b limit : Int) (S : Scene I) : Later b limit S S :=
  ⟨Nat.le_refl _, .refl _, fun _ => rfl, fun _ _ _ _ => rfl⟩

theorem trans (h : Later b limit S S') (k : Later b' limit' S' S'') (hb : b ≤ b')
    (hlimit : limit ≤ limit') : Later b limit S S'' where
  heap_le := Nat.le_trans h.heap_le k.heap_le
  extends_world := h.extends_world.trans k.extends_world
  word_eq hx := (k.word_eq (Int.lt_of_lt_of_le hx hlimit)).trans (h.word_eq hx)
  mem_eq := by
    intro x hcursor hstack hlt hslot
    have hslot' : ∀ k i, S'.world.word x ≠ some (.slot k i) := fun k i => by
      rw [h.word_eq hlt]
      exact hslot k i
    rw [k.mem_eq hcursor (hstack.imp_left fun hx => Int.lt_of_lt_of_le hx hb)
      (Int.lt_of_lt_of_le hlt hlimit) hslot', h.mem_eq hcursor hstack hlt hslot]

theorem mono (h : Later b' limit' S S') (hb : b ≤ b') (hlimit : limit ≤ limit') :
    Later b limit S S' :=
  (refl b limit S).trans h hb hlimit

theorem top_le (h : Later b limit S S') : S.top ≤ S'.top := by
  have := h.heap_le
  unfold Scene.top
  omega

/-- The stack below the base is left alone. -/
theorem mem_onStack {x : Int} (h : Later b limit S S') (hx : I.OnStack x) (hb : x < b)
    (hlimit : I.ramBegin ≤ limit) : S'.mem x = S.mem x := by
  have hloose : S.Loose x := Scene.loose_of_onStack hx
  refine h.mem_eq hloose.ne_cursor (.inl hb) (Int.lt_of_lt_of_le hx.2 hlimit) fun k i hslot => ?_
  rw [hloose.word_eq] at hslot
  cases hslot

/-- What was loose stays loose, with the same content. -/
theorem loose {x : Int} (h : Later b limit S S') (hx : S.Loose x) (hlimit : x < limit) : S'.Loose x :=
  ⟨(h.word_eq hlimit).trans hx.word_eq, hx.ne_cursor, hx.free, Int.lt_of_lt_of_le hx.lt_top h.top_le⟩

theorem store {x v : Int} (hx : S.Loose x) (hstack : b ≤ x ∧ x < I.ramBegin ∨ limit ≤ x) :
    Later b limit S (S.store x v hx) where
  heap_le := Nat.le_refl _
  extends_world := .refl _
  word_eq _ := rfl
  mem_eq := by
    intro y _ hy hlt _
    have hne : y ≠ x := by
      rintro rfl
      omega
    exact Function.update_of_ne hne ..

/-- A word of the stack is written in the end. -/
theorem push {x v : Int} (h : Later b limit S S') (hstack : I.OnStack x) (hb : b ≤ x) :
    Later b limit S (S'.store x v (Scene.loose_of_onStack hstack)) :=
  h.trans (.store _ (.inl ⟨hb, hstack.2⟩)) (Int.le_refl _) (Int.le_refl _)

theorem learn {new : Int → Option Content} (hnew : S.Admits new)
    (hlimit : ∀ {x c}, new x = some c → limit ≤ x) : Later b limit S (S.learn new hnew) where
  heap_le := Nat.le_refl _
  extends_world := World.extends_learn hnew.toAdmits
  word_eq := by
    intro x hx
    change (S.world.word x).or (new x) = _
    rcases hc : new x with _ | c
    · exact Option.or_none
    · have := hlimit hc
      omega
  mem_eq _ _ _ _ := rfl

theorem reserve {n : Nat} (hn : S.state.heap + n ≤ I.room.heap) : Later b limit S (S.reserve n hn) where
  heap_le := Nat.le_add_right _ _
  extends_world := .refl _
  word_eq _ := rfl
  mem_eq hcursor _ _ _ := Function.update_of_ne hcursor ..

theorem pushFrame (slots : List (Value Site)) : Later b limit S (S.pushFrame slots) :=
  ⟨Nat.le_refl _, .refl _, fun _ => rfl, fun _ _ _ _ => rfl⟩

theorem exchange (q : Queue) : Later b limit S (S.exchange q) :=
  ⟨Nat.le_refl _, .refl _, fun _ => rfl, fun _ _ _ _ => rfl⟩

theorem fill {x : Int} {k i : Nat} (hx : S.world.word x = some (.slot k i)) {v : Value Site} {y : Int}
    (hv : Represents I S.world v y) : Later b limit S (S.fill hx hv) where
  heap_le := Nat.le_refl _
  extends_world := .refl _
  word_eq _ := rfl
  mem_eq := by
    intro z _ _ _ hslot
    have hne : z ≠ x := by
      rintro rfl
      exact hslot k i hx
    exact Function.update_of_ne hne ..

end Later

/-! ## Operations made of these -/

namespace Scene

variable (S : Scene I)

/-- One word that will not change any more. -/
def settled (x v : Int) (y : Int) : Option Content :=
  if y = x then some (.fixed v) else none

variable {S}

theorem Loose.admits {x : Int} (hx : S.Loose x) (hstack : ¬ I.OnStack x) :
    S.Admits (settled x (S.mem x)) := by
  have heq : ∀ {y c}, settled x (S.mem x) y = some c → y = x ∧ c = .fixed (S.mem x) := by
    intro y c h
    unfold settled at h
    split at h
    · next hyx => exact ⟨hyx, (Option.some.inj h).symm⟩
    · cases h
  constructor
  · refine ⟨fun h => ?_, fun h => ?_, fun h => ?_, fun h => ?_, fun h _ => ?_, fun h => ?_⟩
    · exact (heq h).1 ▸ hx.word_eq
    · exact (heq h).1 ▸ hx.free
    · exact (heq h).1 ▸ hx.ne_cursor
    · exact (heq h).1 ▸ hstack
    · cases (heq h).2
    · cases (heq h).2
  · intro y v h
    cases (heq h).2
    rw [(heq h).1]
  · intro y k i h
    cases (heq h).2
  · intro y c h
    exact (heq h).1 ▸ hx.lt_top

/-- The content of a word will not change any more. -/
def settle (S : Scene I) (x : Int) (hx : S.Loose x) (hstack : ¬ I.OnStack x) : Scene I :=
  S.learn (settled x (S.mem x)) (hx.admits hstack)

theorem word_settle {x : Int} (hx : S.Loose x) (hstack : ¬ I.OnStack x) :
    (S.settle x hx hstack).world.word x = some (.fixed (S.mem x)) :=
  World.word_learn (hx.admits hstack).toAdmits (if_pos rfl)

theorem later_settle {b limit x : Int} (hx : S.Loose x) (hstack : ¬ I.OnStack x) (hlimit : limit ≤ x) :
    Later b limit S (S.settle x hx hstack) := by
  refine Later.learn (hx.admits hstack) fun {y c} h => ?_
  unfold settled at h
  split at h
  · next hyx =>
    rw [hyx]
    exact hlimit
  · cases h

theorem loose_settle {x y : Int} (hx : S.Loose x) (hstack : ¬ I.OnStack x) (hy : S.Loose y) (hne : y ≠ x) :
    (S.settle x hx hstack).Loose y where
  word_eq := by
    change (S.world.word y).or (settled x (S.mem x) y) = none
    rw [hy.word_eq, settled, if_neg hne]
    rfl
  ne_cursor := hy.ne_cursor
  free := hy.free
  lt_top := hy.lt_top

variable (S)

theorem top_reserve {n : Nat} (hn : S.state.heap + n ≤ I.room.heap) :
    (S.reserve n hn).top = S.top + n := by
  change (I.ramBegin : Int) + (S.state.heap + n : Nat) = I.ramBegin + S.state.heap + n
  push_cast
  omega

theorem loose_top {n : Nat} (hn : S.state.heap + n ≤ I.room.heap) {i : Nat} (hi : i < n) :
    (S.reserve n hn).Loose (S.top + i) where
  word_eq := (S.unused (by unfold top; omega)).1
  ne_cursor := by
    have := I.cursor_lt
    have := I.stack_fits
    unfold top
    omega
  free := by
    have := I.stack_fits
    have := I.heap_fits
    exact Image.free_of_le (by unfold top; omega) (by unfold top; omega)
  lt_top := by
    rw [top_reserve]
    omega

variable {v : Int} (h : S.state.heap + 1 ≤ I.room.heap)

theorem loose_reserve : (S.reserve 1 h).Loose S.top := by
  simpa using S.loose_top h Nat.zero_lt_one

theorem loose_allot : ((S.reserve 1 h).store S.top v (S.loose_reserve h)).Loose S.top := by
  obtain ⟨hword, hcursor, hfree, hlt⟩ := S.loose_reserve h
  exact ⟨hword, hcursor, hfree, hlt⟩

/-- A word is put on top of the heap. -/
def allot (v : Int) (h : S.state.heap + 1 ≤ I.room.heap) : Scene I :=
  Scene.settle _ S.top (S.loose_allot h (v := v)) (not_onStack_of_le (Int.le_refl _))

theorem top_allot : (S.allot v h).top = S.top + 1 :=
  S.top_reserve h

/-- The order in which the word and the cursor are written does not matter. -/
theorem mem_allot : (S.allot v h).mem =
    Function.update (Function.update S.mem S.top v) I.cursor (S.mem I.cursor + 1) := by
  change Function.update (Function.update S.mem I.cursor _) S.top v = _
  rw [Function.update_comm S.top_ne_cursor]
  rfl

theorem word_allot : (S.allot v h).world.word S.top = some (.fixed v) := by
  refine (word_settle (S.loose_allot h) _).trans ?_
  exact congrArg (fun w => some (Content.fixed w)) (Function.update_self ..)

theorem later_allot {b limit : Int} (hlimit : limit ≤ S.top) : Later b limit S (S.allot v h) :=
  ((Later.reserve h).trans (Later.store _ (.inr hlimit)) (Int.le_refl _) (Int.le_refl _)).trans
    (later_settle (S.loose_allot h) _ hlimit) (Int.le_refl _) (Int.le_refl _)

/-- The words from `x` on, `n` of them, as slots of the frame `k`. -/
def slotsFrom (x : Int) (n k : Nat) (y : Int) : Option Content :=
  if x ≤ y ∧ y < x + n then some (.slot k (y - x).toNat) else none

theorem slotsFrom_eq_some {x : Int} {n k : Nat} {y : Int} {c : Content}
    (h : slotsFrom x n k y = some c) : ∃ i < n, y = x + i ∧ c = .slot k i := by
  unfold slotsFrom at h
  split at h
  · next hy => exact ⟨(y - x).toNat, by omega, by omega, (Option.some.inj h).symm⟩
  · cases h

theorem slotsFrom_add {x : Int} {n k i : Nat} (hi : i < n) :
    slotsFrom x n k (x + i) = some (.slot k i) := by
  rw [slotsFrom, if_pos (by omega)]
  congr 2
  omega

variable {n : Nat} (hn : S.state.heap + n ≤ I.room.heap)

/-- The heap words of a new frame are its slots, and all of them are zero. -/
theorem admits_slotsFrom : ((S.reserve n hn).pushFrame (List.replicate n (.int 0))).Admits
    (slotsFrom S.top n S.state.frames.length) := by
  constructor
  · refine ⟨fun h => ?_, fun h => ?_, fun h => ?_, fun h => ?_, fun h h' => ?_, fun h => ?_⟩ <;>
      obtain ⟨i, hi, rfl, hc⟩ := slotsFrom_eq_some h
    · exact (S.loose_top hn hi).word_eq
    · exact (S.loose_top hn hi).free
    · exact (S.loose_top hn hi).ne_cursor
    · exact not_onStack_of_le (S := S) (by omega)
    · obtain ⟨j, hj, rfl, hc'⟩ := slotsFrom_eq_some h'
      cases hc
      cases hc'
      rfl
    · cases hc
      intro hslot
      obtain ⟨slots, v, hslots, -⟩ := S.slot_of_word hslot
      simp at hslots
  · intro y v h
    obtain ⟨i, hi, rfl, hc⟩ := slotsFrom_eq_some h
    cases hc
  · intro y k i h
    obtain ⟨j, hj, rfl, hc⟩ := slotsFrom_eq_some h
    cases hc
    refine ⟨List.replicate n (.int 0), .int 0, List.getElem?_concat_length, by simp [hj], ?_⟩
    have hzero : (S.reserve n hn).mem (S.top + i) = 0 := by
      refine (Function.update_of_ne (S.loose_top hn hj).ne_cursor ..).trans ?_
      exact (S.unused (by unfold top; omega)).2
    exact hzero.symm ▸ .int 0
  · intro y c h
    obtain ⟨i, hi, rfl, -⟩ := slotsFrom_eq_some h
    exact (S.loose_top hn hi).lt_top

/-- A frame is opened, with its slots on top of the heap. -/
def openFrame (n : Nat) (hn : S.state.heap + n ≤ I.room.heap) : Scene I :=
  Scene.learn _ _ (S.admits_slotsFrom hn)

theorem word_openFrame {i : Nat} (hi : i < n) :
    (S.openFrame n hn).world.word (S.top + i) = some (.slot S.state.frames.length i) :=
  World.word_learn (S.admits_slotsFrom hn).toAdmits (slotsFrom_add hi)

theorem later_openFrame {b limit : Int} (hlimit : limit ≤ S.top) :
    Later b limit S (S.openFrame n hn) := by
  refine ((Later.reserve hn).trans (Later.pushFrame _) (Int.le_refl _) (Int.le_refl _)).trans
    (Later.learn (S.admits_slotsFrom hn) fun {y c} h => ?_) (Int.le_refl _) (Int.le_refl _)
  obtain ⟨i, hi, rfl, -⟩ := slotsFrom_eq_some h
  omega

end Scene

end Lamcode.Simulation
