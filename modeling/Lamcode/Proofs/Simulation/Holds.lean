import Lamcode.Proofs.Reference.Allocate
import Lamcode.Proofs.Simulation.Step

/-!
# Lamcode.Proofs.Simulation.Holds — memory that holds what a program has allocated

The walk over the trees of a program without calls has a memory of its own. `Holds` compares it with the memory of
the machine: outside of the stack the two agree in every word, and the cursor is in its place. Each short sequence of
code keeps this up with one step of the walk.

What a variable means is compared through `Pictures`: the scopes that the walk carries are those that the compiler
resolved names in, and each record points at the next one further out.
-/

namespace Lamcode.Simulation

open Layout Emit Operand Bump

variable {I : Image} {st : State} {mem : Int → Int} {b x v : Int} {q : Queue} {site : Site}

/-! ## Words that are not on the stack -/

/-- A word that code can use, which is neither on the stack nor the cursor. -/
structure Image.Plain (I : Image) (x : Int) : Prop where
  free : I.layout.Free x
  not_onStack : ¬ I.OnStack x
  ne_cursor : x ≠ I.cursor

namespace Image

theorem frozen_eq_none (hx : I.stackBegin ≤ x) : I.layout.frozen x = none := by
  rcases h : I.layout.frozen x with _ | v
  · rfl
  · have := I.frozen_bounds h
    omega

theorem stackBegin_lt_ramBegin : (I.stackBegin : Int) < I.ramBegin := by
  have := I.stack_fits
  omega

theorem OnStack.ne_cursor (hx : I.OnStack x) : x ≠ I.cursor := by
  have := I.cursor_lt
  have := hx.1
  omega

theorem plain_of_heap (hx : I.ramBegin ≤ x) (hlt : x < Memory.addressLimit) : I.Plain x where
  free := free_of_le (Int.le_trans (Int.le_of_lt stackBegin_lt_ramBegin) hx) hlt
  not_onStack h := absurd h.2 (Int.not_lt.2 hx)
  ne_cursor := by
    have := I.cursor_lt
    have := I.stackBegin_lt_ramBegin
    omega

theorem plain_of_frozen (hx : I.layout.frozen x = some v) : I.Plain x where
  free := by
    have hstack := I.stack_fits
    have hheap := I.heap_fits
    have hbounds := I.frozen_bounds hx
    exact ⟨hbounds.1, by omega, I.layout.not_scratch_of_frozen hx⟩
  not_onStack h := by
    have hbounds := I.frozen_bounds hx
    have := h.1
    omega
  ne_cursor := by
    rintro rfl
    rw [I.frozen_cursor] at hx
    cases hx

end Image

/-! ## Memory that holds a state -/

/-- The memory of the machine holds the state of the walk. -/
structure Holds (I : Image) (st : State) (mem : Int → Int) : Prop where
  loaded : I.layout.Loaded mem
  cursor : mem I.cursor = st.cursor
  word : ∀ {x}, ¬ I.OnStack x → x ≠ I.cursor → mem x = st.word x
  unused : ∀ x, st.cursor ≤ x → st.word x = 0
  ramBegin_le : I.ramBegin ≤ st.cursor
  cursor_le : st.cursor ≤ Memory.addressLimit

namespace Holds

/-- The stack is not part of the state. -/
theorem onStack (h : Holds I st mem) (hx : I.OnStack x) (v : Int) : Holds I st (Function.update mem x v) where
  loaded := h.loaded.update (Image.frozen_eq_none hx.1) v
  cursor := (Function.update_of_ne hx.ne_cursor.symm ..).trans h.cursor
  word {y} hy hne := by
    have hyx : y ≠ x := fun heq => hy (heq ▸ hx)
    exact (Function.update_of_ne hyx ..).trans (h.word hy hne)
  unused := h.unused
  ramBegin_le := h.ramBegin_le
  cursor_le := h.cursor_le

/-- A word below the cursor changes. -/
theorem store (h : Holds I st mem) (hx : I.Plain x) (hfrozen : I.layout.frozen x = none) (hlt : x < st.cursor)
    (v : Int) : Holds I (st.store x v) (Function.update mem x v) where
  loaded := h.loaded.update hfrozen v
  cursor := (Function.update_of_ne hx.ne_cursor.symm ..).trans h.cursor
  word hy hne := by
    rw [Function.update_apply, State.word_store, h.word hy hne]
  unused y hy := by
    rw [State.cursor_store] at hy
    rw [State.word_store, if_neg (by omega)]
    exact h.unused y hy
  ramBegin_le := h.ramBegin_le
  cursor_le := h.cursor_le

/-- The cursor moves over words that nothing was stored in yet. -/
theorem reserve (h : Holds I st mem) {n : Nat} (hn : st.cursor + n ≤ Memory.addressLimit) :
    Holds I (st.alloc (List.replicate n 0)) (Function.update mem I.cursor (st.cursor + n)) := by
  rw [State.alloc_zeros h.unused n]
  exact
    { loaded := h.loaded.update I.frozen_cursor _
      cursor := Function.update_self ..
      word := fun hy hne => (Function.update_of_ne hne ..).trans (h.word hy hne)
      unused := fun y (hy : st.cursor + n ≤ y) => h.unused y (by omega)
      ramBegin_le := by
        have := h.ramBegin_le
        change I.ramBegin ≤ st.cursor + n
        omega
      cursor_le := hn }

/-- A word is written at the cursor, which moves over it. -/
theorem push (h : Holds I st mem) (hn : st.cursor + 1 ≤ Memory.addressLimit) (v : Int) :
    Holds I (st.push v) (Function.update (Function.update mem st.cursor v) I.cursor (st.cursor + 1)) where
  loaded := by
    have hram := h.ramBegin_le
    have hstack := I.stackBegin_lt_ramBegin
    exact (h.loaded.update (Image.frozen_eq_none (by omega)) v).update I.frozen_cursor _
  cursor := Function.update_self ..
  word hy hne := by
    rw [Function.update_of_ne hne, Function.update_apply, State.word_push, h.word hy hne]
  unused y hy := by
    rw [State.cursor_push] at hy
    rw [State.word_push, if_neg (by omega)]
    exact h.unused y (by omega)
  ramBegin_le := by
    have := h.ramBegin_le
    rw [State.cursor_push]
    omega
  cursor_le := hn

/-- Which function bodies are still to come does not show in memory. -/
theorem withBodies (h : Holds I st mem) (bodies : List Int) : Holds I { st with bodies } mem :=
  ⟨h.loaded, h.cursor, h.word, h.unused, h.ramBegin_le, h.cursor_le⟩

theorem plain_cursor (h : Holds I st mem) (hn : st.cursor + 1 ≤ Memory.addressLimit) : I.Plain st.cursor :=
  Image.plain_of_heap h.ramBegin_le (by omega)

/-! ### Short sequences of code -/

variable {t : ScopeTable}

theorem names_cursor : Names I.layout t site.scope ⟨b, mem, q⟩ (.wordAt .ramPointer) I.cursor :=
  names_wordAt I.address_cursor Image.free_cursor

theorem yields_cursor (h : Holds I st mem) :
    Yields I.layout t site.scope ⟨b, mem, q⟩ (.wordAt .ramPointer) st.cursor :=
  h.cursor ▸ names_cursor.yields

/-- A slot of the frame as an operand. -/
theorem yields_slot {k : Int} (hx : b + k = x) (hstack : I.OnStack x) (hv : mem x = v) :
    Yields I.layout t site.scope ⟨b, mem, q⟩ (.rel k) v :=
  hv ▸ (names_rel (d := ⟨b, mem, q⟩) hx hstack.free).yields

theorem yields_scope (hstack : I.OnStack (b - 2)) (hv : mem (b - 2) = v) :
    Yields I.layout t site.scope ⟨b, mem, q⟩ (.rel (-2)) v :=
  yields_slot (x := b - 2) rfl hstack hv

/-- A value is put in a slot of the frame. -/
theorem exists_slot (h : Holds I st mem) {source : Operand} {k : Int}
    (hv : Yields I.layout t site.scope ⟨b, mem, q⟩ source v) (hx : b + k = x) (hstack : I.OnStack x) :
    ∃ mem', Falls I.layout t site (copy source (.rel k)) ⟨b, mem, q⟩ ⟨b, mem', q⟩ ∧ Holds I st mem' ∧
      mem' x = v ∧ ∀ y, y ≠ x → mem' y = mem y :=
  ⟨_, falls_copy h.loaded hv (names_rel hx hstack.free), h.onStack hstack v, Function.update_self ..,
    fun _ hy => Function.update_of_ne hy ..⟩

/-- The cursor is moved over words that nothing was stored in yet. -/
theorem exists_reserve (h : Holds I st mem) {amount : Operand} {n : Nat}
    (hv : Yields I.layout t site.scope ⟨b, mem, q⟩ amount n) (hn : st.cursor + n ≤ Memory.addressLimit) :
    ∃ mem', Falls I.layout t site (addTo amount (.wordAt .ramPointer)) ⟨b, mem, q⟩ ⟨b, mem', q⟩ ∧
      Holds I (st.alloc (List.replicate n 0)) mem' ∧ ∀ y, I.OnStack y → mem' y = mem y := by
  refine ⟨_, falls_addTo h.loaded hv names_cursor, ?_, fun y hy => Function.update_of_ne hy.ne_cursor ..⟩
  have hreserve := h.reserve hn
  rwa [← h.cursor] at hreserve

/-- A word is put on the heap. -/
theorem exists_push (h : Holds I st mem) {value : Operand}
    (hv : Yields I.layout t site.scope ⟨b, mem, q⟩ value v) (hn : st.cursor + 1 ≤ Memory.addressLimit) :
    ∃ mem', Falls I.layout t site (writeToRam value) ⟨b, mem, q⟩ ⟨b, mem', q⟩ ∧
      Holds I (st.push v) mem' ∧ ∀ y, I.OnStack y → mem' y = mem y := by
  have hplain := h.plain_cursor hn
  have htop : Names I.layout t site.scope ⟨b, mem, q⟩ (Operand.deref (.wordAt .ramPointer)).toPointer st.cursor :=
    names_pointee I.address_cursor Image.free_cursor h.cursor hplain.free
  have hcursor : Function.update mem st.cursor v I.cursor = st.cursor :=
    (Function.update_of_ne hplain.ne_cursor.symm ..).trans h.cursor
  have hram := h.ramBegin_le
  have hstack := I.stackBegin_lt_ramBegin
  have hloaded := h.loaded.update (Image.frozen_eq_none (x := st.cursor) (by omega)) v
  have hadd : Falls I.layout t site (addTo (.int 1) (.wordAt .ramPointer)) ⟨b, Function.update mem st.cursor v, q⟩
      ⟨b, Function.update (Function.update mem st.cursor v) I.cursor
        (Function.update mem st.cursor v I.cursor + 1), q⟩ := falls_addTo hloaded (yields_int 1) names_cursor
  rw [hcursor] at hadd
  refine ⟨_, (falls_copy h.loaded hv htop).cons (hadd.cons .nil), h.push hn v, fun y hy => ?_⟩
  have hne : y ≠ st.cursor := by
    rintro rfl
    exact hplain.not_onStack hy
  rw [Function.update_of_ne hy.ne_cursor, Function.update_of_ne hne]

/-- A word below the cursor is stored to. -/
theorem exists_store (h : Holds I st mem) {source target : Operand}
    (hv : Yields I.layout t site.scope ⟨b, mem, q⟩ source v)
    (hx : Names I.layout t site.scope ⟨b, mem, q⟩ target x) (hplain : I.Plain x)
    (hfrozen : I.layout.frozen x = none) (hlt : x < st.cursor) :
    ∃ mem', Falls I.layout t site (copy source target) ⟨b, mem, q⟩ ⟨b, mem', q⟩ ∧ Holds I (st.store x v) mem' ∧
      ∀ y, I.OnStack y → mem' y = mem y := by
  refine ⟨_, falls_copy h.loaded hv hx, h.store hplain hfrozen hlt v, fun y hy => Function.update_of_ne ?_ ..⟩
  rintro rfl
  exact hplain.not_onStack hy

theorem falls_move (h : Holds I st mem) {n b' : Int} (hb : b + n = b') :
    Falls I.layout t site (moveStack n) ⟨b, mem, q⟩ ⟨b', mem, q⟩ := by
  subst hb
  exact falls_moveStack h.loaded n

/-- The frame two words up is left, and one of its words becomes slot 0 of the frame below. -/
theorem exists_return (h : Holds I st mem) {k : Int} (hstack : I.OnStack b) (hx : b + k = x)
    (hstack' : I.OnStack x) :
    ∃ mem', Falls I.layout t site (concat [moveStack (-2), copy (.rel k) (.rel 0)]) ⟨b + 2, mem, q⟩ ⟨b, mem', q⟩ ∧
      Holds I st mem' ∧ mem' b = mem x ∧ ∀ y, y ≠ b → mem' y = mem y := by
  obtain ⟨mem', hfalls, hholds, hself, hrest⟩ := h.exists_slot (q := q) (t := t)
    (yields_slot hx hstack' rfl) (Int.add_zero b) hstack
  exact ⟨mem', (h.falls_move (by omega)).cons (hfalls.cons .nil), hholds, hself, hrest⟩

end Holds

/-! ## Scopes -/

/-- The scopes of the walk are those around the scope `scope` of the program: the built-ins, the globals, and records
on the heap, each of which lies behind the one it is in and points at it. -/
inductive Pictures (I : Image) (st : State) : Scopes → Nat → Prop
  | globals {names : List String} :
    I.scopes.get ScopeTable.builtins = builtinScope I.builtins →
    I.scopes.get ScopeTable.globals = ⟨some ScopeTable.builtins, some .globalScope, names⟩ →
    I.globalRecord < I.ramBegin →
    (∀ i < names.length, I.Plain (I.globalRecord + (Heap.recordHeader + i : Nat)) ∧
      I.layout.frozen (I.globalRecord + (Heap.recordHeader + i : Nat)) = none ∧
      I.globalRecord + (Heap.recordHeader + i) < I.ramBegin) →
    Pictures I st [(names, I.globalRecord), (I.builtins.map Builtin.name, I.builtinRecord)] ScopeTable.globals
  | block {names : List String} {scopes : Scopes} {outer scope : Nat} {r : Int} :
    I.scopes.get scope = ⟨some outer, none, names⟩ → outer < scope →
    I.ramBegin ≤ r → r + Heap.recordHeader + names.length ≤ st.cursor →
    st.word r = scopes.record → scopes.record < r → Pictures I st scopes outer →
    Pictures I st ((names, r) :: scopes) scope

namespace Pictures

variable {scopes : Scopes} {scope : Nat} {name : String}

/-- The walk may go on, as long as it leaves the records alone that point at one another. -/
theorem mono {st' : State} (h : Pictures I st scopes scope) (hcursor : st.cursor ≤ st'.cursor)
    (hword : ∀ x : Int, I.ramBegin ≤ x → x ≤ scopes.record → st'.word x = st.word x) :
    Pictures I st' scopes scope := by
  -- outwards: a record lies in front of the ones inside it, so what stays up to the innermost stays up to each
  induction h with
  | globals hbuiltins hglobals hrecord hslots => exact .globals hbuiltins hglobals hrecord hslots
  | @block names scopes outer scope r hscope hlt hram hfits hparent hrecord _ ih =>
    refine .block hscope hlt hram (by omega) ?_ hrecord (ih fun x hx hle => hword x hx ?_)
    · rw [hword r hram (Int.le_refl r), hparent]
    · change x ≤ r
      omega

theorem record_lt (h : Pictures I st scopes scope) (hram : I.ramBegin ≤ st.cursor) : scopes.record < st.cursor := by
  cases h with
  | globals _ _ hrecord _ =>
    change (I.globalRecord : Int) < st.cursor
    omega
  | @block names scopes outer _ r _ _ _ hfits =>
    change r < st.cursor
    simp only [Heap.recordHeader] at hfits
    omega

/-- The walk may put more on the heap. -/
theorem later {st' : State} (h : Pictures I st scopes scope) (hram : I.ramBegin ≤ st.cursor)
    (hcursor : st.cursor ≤ st'.cursor) (hword : ∀ x, x < st.cursor → st'.word x = st.word x) :
    Pictures I st' scopes scope := by
  have hlt := h.record_lt hram
  exact h.mono hcursor fun x _ hle => hword x (by omega)

/-- The walk may store behind the records. -/
theorem store (h : Pictures I st scopes scope) (hx : scopes.record < x) (v : Int) :
    Pictures I (st.store x v) scopes scope := by
  refine h.mono (Int.le_refl _) fun y _ hle => ?_
  rw [State.word_store, if_neg (by omega)]

theorem lt_size (h : Pictures I st scopes scope) : scope < I.scopes.size := by
  apply ScopeTable.lt_size_of_get_ne
  cases h with
  | globals _ hglobals _ _ =>
    rw [hglobals]
    exact fun h => nomatch h
  | block hscope _ _ _ _ _ _ =>
    rw [hscope]
    exact fun h => nomatch h

/-- A built-in is in its slot of the record of the built-ins, wherever it is seen from. -/
theorem located_builtin {limit : Nat} {res : Resolution} (r : Int)
    (hscope : I.scopes.get ScopeTable.builtins = builtinScope I.builtins)
    (hres : I.scopes.resolveWithin name (limit + 1) ScopeTable.builtins = some res) :
    res.fromChild = res ∧
      Located I.layout mem r res (Scopes.slot name [(I.builtins.map Builtin.name, I.builtinRecord)]) ∧
      I.Plain (Scopes.slot name [(I.builtins.map Builtin.name, I.builtinRecord)]) := by
  rcases hi : (I.builtins.map Builtin.name).idxOf? name with _ | i
  · rw [ScopeTable.resolveWithin_outermost (by rw [hscope]; exact hi) (by rw [hscope]; rfl)] at hres
    cases hres
  · rw [ScopeTable.resolveWithin_here (by rw [hscope]; exact hi), hscope] at hres
    cases hres
    rw [Scopes.slot, hi]
    obtain ⟨hlt, -⟩ := List.idxOf?_eq_some_iff.1 hi
    rw [List.length_map] at hlt
    obtain ⟨x, hx, -⟩ := I.builtin_stands (List.getElem?_eq_getElem hlt)
    rw [slotAddress_eq] at hx
    exact ⟨rfl, .fixed I.address_builtins, Image.plain_of_frozen hx⟩

/-- What the walk looks up is in the word that the compiler resolved the name to. -/
theorem located (hholds : Holds I st mem) {limit : Nat} {res : Resolution} (h : Pictures I st scopes scope)
    (hlt : scope < limit) (hres : I.scopes.resolveWithin name limit scope = some res) :
    Located I.layout mem scopes.record res (scopes.slot name) ∧ I.Plain (scopes.slot name) := by
  -- outwards: each scope without the name is one more record to follow to the one around it
  induction h generalizing limit res with
  | @globals names hbuiltins hglobals _ hslots =>
    obtain ⟨limit, rfl⟩ : ∃ n, limit = n + 1 + 1 :=
      ⟨limit - 2, by simp only [ScopeTable.globals] at hlt; omega⟩
    rcases hi : names.idxOf? name with _ | i
    · rw [ScopeTable.resolveWithin_outer (by rw [hglobals]; exact hi) (by rw [hglobals])] at hres
      obtain ⟨res', hres', rfl⟩ := Option.map_eq_some_iff.1 hres
      obtain ⟨hfixed, hfound⟩ := located_builtin I.globalRecord hbuiltins hres'
      rw [hfixed, Scopes.slot, hi]
      exact hfound
    · rw [ScopeTable.resolveWithin_here (by rw [hglobals]; exact hi), hglobals] at hres
      cases hres
      rw [Scopes.slot, hi]
      exact ⟨.fixed I.address_globals, (hslots i (List.idxOf?_eq_some_iff.1 hi).1).1⟩
  | @block names scopes outer scope r hscope houter hram hfits hparent _ _ ih =>
    obtain ⟨limit, rfl⟩ : ∃ n, limit = n + 1 := ⟨limit - 1, by omega⟩
    have hlimit := hholds.cursor_le
    have hr : I.Plain r := Image.plain_of_heap hram (by simp only [Heap.recordHeader] at hfits; omega)
    rcases hi : names.idxOf? name with _ | i
    · rw [ScopeTable.resolveWithin_outer (by rw [hscope]; exact hi) (by rw [hscope])] at hres
      obtain ⟨res', hres', rfl⟩ := Option.map_eq_some_iff.1 hres
      obtain ⟨hlocated, hplain⟩ := ih (by omega) hres'
      rw [Scopes.slot, hi]
      exact ⟨hlocated.fromChild hr.free ((hholds.word hr.not_onStack hr.ne_cursor).trans hparent), hplain⟩
    · rw [ScopeTable.resolveWithin_here (by rw [hscope]; exact hi), hscope] at hres
      cases hres
      have hilt := (List.idxOf?_eq_some_iff.1 hi).1
      rw [Scopes.slot, hi]
      refine ⟨.dynamic (.zero _), Image.plain_of_heap ?_ ?_⟩
      · push_cast
        omega
      · push_cast
        omega

/-- A name of the innermost scope resolves, and its slot is a word that can be stored to. -/
theorem own {names : List String} {r : Int} (h : Pictures I st ((names, r) :: scopes) scope)
    (hram : I.ramBegin ≤ st.cursor) (hname : name ∈ names) :
    (∃ res, I.scopes.resolve scope name = some res) ∧
      I.layout.frozen (Scopes.slot name ((names, r) :: scopes)) = none ∧
      r < Scopes.slot name ((names, r) :: scopes) ∧ Scopes.slot name ((names, r) :: scopes) < st.cursor := by
  obtain ⟨limit, hsize⟩ : ∃ n, I.scopes.size = n + 1 := ⟨I.scopes.size - 1, by have := h.lt_size; omega⟩
  obtain ⟨i, hi, hlt, hslot⟩ := Scopes.slot_of_mem hname r scopes
  rw [hslot, ScopeTable.resolve, hsize]
  cases h with
  | globals _ hglobals _ hslots =>
    obtain ⟨-, hfrozen, hbelow⟩ := hslots i hlt
    refine ⟨⟨_, ScopeTable.resolveWithin_here (by rw [hglobals]; exact hi)⟩, hfrozen, ?_, ?_⟩
    · simp only [Heap.recordHeader]
      omega
    · push_cast
      omega
  | block hscope _ hle hfits _ _ _ =>
    have hstack := I.stackBegin_lt_ramBegin
    refine ⟨⟨_, ScopeTable.resolveWithin_here (by rw [hscope]; exact hi)⟩, Image.frozen_eq_none ?_, ?_, ?_⟩
    · push_cast
      omega
    · simp only [Heap.recordHeader]
      omega
    · push_cast
      omega

end Pictures

/-- A frame in which code can be run: memory holds the state, and slot -2 the record of the scope. -/
structure FrameReady (I : Image) (scopes : Scopes) (scope : Nat) (st : State) (mem : Int → Int) (b : Int) : Prop where
  holds : Holds I st mem
  pictures : Pictures I st scopes scope
  record : mem (b - 2) = scopes.record

/-- The operand of a name names its slot. -/
theorem FrameReady.names_named {scopes : Scopes} {scope : Nat} {name : String} (h : FrameReady I scopes scope st mem b)
    (hstack : I.OnStack (b - 2)) (hres : ∃ res, I.scopes.resolve scope name = some res) :
    Names I.layout I.scopes scope ⟨b, mem, q⟩ (.named name) (scopes.slot name) ∧ I.Plain (scopes.slot name) := by
  obtain ⟨res, hres⟩ := hres
  obtain ⟨hlocated, hplain⟩ := h.pictures.located h.holds h.pictures.lt_size hres
  rw [← h.record] at hlocated
  have hreads : I.layout.Reads b mem .relative scopeSlot (mem (b - 2)) := ⟨hstack.free, rfl⟩
  exact ⟨⟨.position, _, hlocated.means (d := ⟨b, mem, q⟩) hres hreads, hplain.free, rfl⟩, hplain⟩

end Lamcode.Simulation
