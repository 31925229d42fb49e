import Lamcode.Proofs.Simulation.Scene

/-!
# Lamcode.Proofs.Simulation.Step — short sequences of code and variables, on scenes

Each short sequence that code is made of leads from a scene to the scene of the matching operation. The second part
finds variables: what the compiler resolved a name to, and what the evaluator looks up under it, are the same word.
-/

namespace Lamcode

/-- The name of a built-in stands for no other one. -/
theorem Builtin.name_injective {b c : Builtin} (h : b.name = c.name) : b = c := by
  revert h
  cases b <;> cases c <;> decide

namespace Simulation

open Layout Emit Operand Reference

variable {I : Image} {S : Scene I} {t : ScopeTable} {site : Site} {b b' : Int}

/-! ## Short sequences -/

theorem names_slot {k x : Int} {scope : Nat} (hx : b + k = x) (hstack : I.OnStack x) :
    Names I.layout t scope (S.data b) (.rel k) x :=
  names_rel hx hstack.free

theorem yields_slot {k x v : Int} {scope : Nat} (hx : b + k = x) (hstack : I.OnStack x) (hv : S.mem x = v) :
    Yields I.layout t scope (S.data b) (.rel k) v :=
  hv ▸ (names_slot hx hstack).yields

/-- A word of the closure that a slot points at. -/
theorem yields_field {n k x y v : Int} {scope : Nat} (hx : b + k = x) (hstack : I.OnStack x)
    (hy : S.mem x = y) (hv : S.world.word (y + n) = some (.fixed v)) :
    Yields I.layout t scope (S.data b) (Operand.offset (.int n) (.rel k)).toPointer v := by
  subst hx
  rw [← S.mem_of_fixed hv]
  exact (names_behind hstack.free hy (Int.add_comm n y) (S.world.free hv)).yields

theorem names_cursor {scope : Nat} :
    Names I.layout t scope (S.data b) (.wordAt .ramPointer) I.cursor :=
  names_wordAt I.address_cursor Image.free_cursor

theorem yields_cursor {scope : Nat} :
    Yields I.layout t scope (S.data b) (.wordAt .ramPointer) S.top :=
  S.mem_cursor_eq_top ▸ names_cursor.yields

theorem falls_store {source target : Operand} {v x : Int}
    (hv : Yields I.layout t site.scope (S.data b) source v)
    (hx : Names I.layout t site.scope (S.data b) target x) (hloose : S.Loose x) :
    Falls I.layout t site (copy source target) (S.data b) ((S.store x v hloose).data b) :=
  falls_copy S.loaded hv hx

/-- A value is put in a slot of the frame. -/
theorem falls_push {source : Operand} {v k x : Int}
    (hv : Yields I.layout t site.scope (S.data b) source v) (hx : b + k = x) (hstack : I.OnStack x) :
    Falls I.layout t site (copy source (.rel k)) (S.data b)
      ((S.store x v (Scene.loose_of_onStack hstack)).data b) :=
  falls_store hv (names_slot hx hstack) _

theorem falls_move {n : Int} (h : b + n = b') :
    Falls I.layout t site (moveStack n) (S.data b) (S.data b') := by
  subst h
  exact falls_moveStack S.loaded n

/-- The frame is left, and a slot of it, if it is one of the frame below, becomes slot 0 there. -/
theorem falls_return {n k x : Int} (hb : b + n = b') (hstack : I.OnStack b) (hx : b + k = x)
    (hstack' : I.OnStack x) :
    Falls I.layout t site (concat [moveStack (-n), copy (.rel k) (.rel 0)]) (S.data b')
      ((S.store b (S.mem x) (Scene.loose_of_onStack hstack)).data b) :=
  (falls_move (by omega)).cons
    ((falls_push (names_slot hx hstack').yields (Int.add_zero b) hstack).cons .nil)

/-- A function goes back to the address in slot 1. -/
theorem exits_back {x : Int} {resume : Nat} (hx : b + 1 = x) (hstack : I.OnStack x)
    (hmem : S.mem x = resume) (hlt : resume < Memory.addressLimit) :
    Exits I.layout t site (concat [jump (.rel 1)]) (S.data b) ((S.data b).config resume) :=
  .last (.jump _) (exits_jump S.loaded (yields_slot hx hstack hmem) hlt)

theorem falls_reserve {amount : Operand} {n : Nat}
    (hv : Yields I.layout t site.scope (S.data b) amount n) (hn : S.state.heap + n ≤ I.room.heap) :
    Falls I.layout t site (addTo amount (.wordAt .ramPointer)) (S.data b) ((S.reserve n hn).data b) :=
  falls_addTo S.loaded hv names_cursor

/-- A word is written behind the heap in use, and the cursor moved over it. -/
theorem falls_allot {value : Operand} {v : Int}
    (hv : Yields I.layout t site.scope (S.data b) value v) (h : S.state.heap + 1 ≤ I.room.heap) :
    Falls I.layout t site (writeToRam value) (S.data b) ((S.allot v h).data b) := by
  have hfrozen : I.layout.frozen S.top = none := by
    rcases hx : I.layout.frozen S.top with _ | w
    · rfl
    · have hword := S.world.of_frozen hx
      rw [S.word_top] at hword
      cases hword
  have hloaded := S.loaded.update hfrozen v
  have htop : Names I.layout t site.scope (S.data b) (Operand.deref (.wordAt .ramPointer)).toPointer S.top :=
    names_pointee I.address_cursor Image.free_cursor S.mem_cursor (S.free_top (by omega))
  have hfirst := falls_copy S.loaded hv htop
  have hsecond : Falls I.layout t site (addTo (.int 1) (.wordAt .ramPointer))
      ⟨b, Function.update S.mem S.top v, S.state.queue⟩ _ :=
    falls_addTo hloaded (yields_int 1) (names_wordAt I.address_cursor Image.free_cursor)
  have hcursor : Function.update S.mem S.top v I.cursor = S.mem I.cursor :=
    Function.update_of_ne S.top_ne_cursor.symm ..
  have hdata : (S.allot v h).data b = ⟨b, Function.update (Function.update S.mem S.top v) I.cursor
      (Function.update S.mem S.top v I.cursor + 1), S.state.queue⟩ := by
    rw [Scene.data, Scene.mem_allot, hcursor]
    rfl
  rw [hdata]
  exact hfirst.cons (hsecond.cons .nil)

variable (t site) in
/-- Two words are put on the heap, the second one from the frame. This is how closures and records of calls are made. -/
theorem exists_pair {o : Operand} {v w k x : Int} (hv : Yields I.layout t site.scope (S.data b) o v)
    (hx : b + k = x) (hstack : I.OnStack x) (hw : S.mem x = w)
    (hheap : S.state.heap + 2 ≤ I.room.heap) :
    ∃ S' : Scene I, S'.state = { S.state with heap := S.state.heap + 2 } ∧
      Falls I.layout t site (concat [writeToRam o, writeToRam (.rel k)]) (S.data b) (S'.data b) ∧
      (∀ y, I.OnStack y → S'.mem y = S.mem y) ∧
      (∀ b' limit, limit ≤ S.top → Later b' limit S S') ∧
      S'.world.word S.top = some (.fixed v) ∧ S'.world.word (S.top + 1) = some (.fixed w) := by
  let S₁ := S.allot v (by omega)
  have htop : S₁.top = S.top + 1 := S.top_allot _
  have hheap₁ : S₁.state.heap + 1 ≤ I.room.heap := hheap
  have hlater₁ : ∀ b' limit, limit ≤ S.top → Later b' limit S S₁ := fun _ _ => S.later_allot _
  have hlater₂ : ∀ b' limit, limit ≤ S.top → Later b' limit S₁ (S₁.allot w hheap₁) :=
    fun _ _ hlimit => S₁.later_allot _ (by omega)
  have hstack₁ : ∀ y, I.OnStack y → S₁.mem y = S.mem y := fun y hy =>
    (hlater₁ (y + 1) S.top (Int.le_refl _)).mem_onStack hy (by omega) S.ramBegin_le_top
  have hstack₂ : ∀ y, I.OnStack y → (S₁.allot w hheap₁).mem y = S₁.mem y := fun y hy =>
    (hlater₂ (y + 1) S.top (Int.le_refl _)).mem_onStack hy (by omega) S.ramBegin_le_top
  refine ⟨S₁.allot w hheap₁, rfl, ?_, fun y hy => ?_, fun b' limit hlimit => ?_, ?_, ?_⟩
  · exact (falls_allot hv _).cons ((falls_allot (yields_slot hx hstack ((hstack₁ x hstack).trans hw)) _).cons
      .nil)
  · rw [hstack₂ y hy, hstack₁ y hy]
  · exact (hlater₁ b' limit hlimit).trans (hlater₂ b' limit hlimit) (Int.le_refl _) (Int.le_refl _)
  · exact (hlater₂ b S.top (Int.le_refl _)).extends_world (S.word_allot _)
  · rw [← htop]
    exact S₁.word_allot _

/-! ## Variables -/

/-- Where a resolved name is found from the record at `r`. -/
inductive Located (L : Layout) (mem : Int → Int) (r : Int) : Resolution → Int → Prop
  | fixed {location : Label} {offset a : Nat} : L.addresses[location.index]? = some a →
    Located L mem r (.fixed location offset) (a + (Heap.recordHeader + offset : Nat))
  | dynamic {levelsUp offset : Nat} {r' : Int} : Climbs L mem levelsUp r r' →
    Located L mem r (.dynamic levelsUp offset) (r' + (Heap.recordHeader + offset : Nat))

theorem Located.fromChild {L : Layout} {mem : Int → Int} {r r' y : Int} {res : Resolution}
    (hr : L.Free r) (hmem : mem r = r') (h : Located L mem r' res y) :
    Located L mem r res.fromChild y := by
  subst hmem
  cases h with
  | fixed ha => exact .fixed ha
  | dynamic hclimb => exact .dynamic (.succ hr hclimb)

theorem Located.means {L : Layout} {d : Data} {scope : Nat} {name : String} {slot r y : Int}
    {res : Resolution} (h : Located L d.mem r res y) (hres : t.resolve scope name = some res)
    (hslot : L.Reads d.base d.mem .relative slot r) :
    Means L t scope d.base d.mem (.var name slot) .position y := by
  cases h with
  | fixed ha => exact .static hres ha
  | dynamic hclimb => exact .dynamic hres hslot hclimb

/-- A built-in is represented by the word in its slot of the built-in record. -/
theorem represents_builtin {W : World I} {i : Nat} {b : Builtin} (hb : I.builtins[i]? = some b) :
    ∃ x, W.word (I.builtinRecord + (Heap.recordHeader + i : Nat)) = some (.fixed x) ∧
      Represents I W (.builtin b []) x := by
  obtain ⟨x, hx, hat⟩ := I.builtin_stands hb
  refine ⟨x, ?_, ?_⟩
  · rw [← W.of_frozen hx]
    congr 1
    simp only [Heap.recordHeader]
    push_cast
    omega
  · unfold BuiltinAt at hat
    split at hat
    · next hparams => exact .unit _ hparams
    · next param rest hparams =>
      obtain ⟨entry, t, hentry, hlt, hrecord, hscope, hlevels⟩ := hat
      refine .builtin (W.of_frozen hentry) hlt (W.of_frozen hrecord) ?_ hparams hlevels
      rw [bindAll_nil]
      exact .builtins hscope

/-- What the evaluator finds outside of all scopes is in the record of the built-ins, wherever it is seen from. -/
theorem located_builtin {name : String} {v : Value Site} {st : State Site} {limit : Nat}
    {res : Resolution} (r : Int) (hscope : t.get ScopeTable.builtins = builtinScope I.builtins)
    (hlookup : lookup name [] S.state = .ok (v, st))
    (hres : t.resolveWithin name (limit + 1) ScopeTable.builtins = some res) :
    res.fromChild = res ∧ st = S.state ∧ ∃ y, Located I.layout S.mem r res y ∧ I.layout.Free y ∧
      Represents I S.world v (S.mem y) := by
  rcases hi : (t.get ScopeTable.builtins).names.idxOf? name with _ | i
  · rw [ScopeTable.resolveWithin_outermost hi (by rw [hscope]; rfl)] at hres
    cases hres
  rw [ScopeTable.resolveWithin_here hi, hscope] at hres
  cases hres
  rw [hscope] at hi
  obtain ⟨hlt, hname, -⟩ := List.idxOf?_eq_some_iff.1 hi
  have hname : (I.builtins.map Builtin.name)[i]? = some name := List.getElem?_eq_some_iff.2 ⟨hlt, hname⟩
  rw [List.getElem?_map] at hname
  obtain ⟨c, hget, hcname⟩ := Option.map_eq_some_iff.1 hname
  -- the name belongs to one built-in only
  rcases hb : Builtin.ofName? name with _ | b
  · rw [lookup, hb] at hlookup
    cases hlookup
  · rw [lookup, hb] at hlookup
    cases hlookup
    have hbname : b.name = name := by simpa using List.find?_some hb
    obtain rfl : c = b := Builtin.name_injective (hcname.trans hbname.symm)
    obtain ⟨x, hx, hrep⟩ := represents_builtin (W := S.world) hget
    refine ⟨rfl, rfl, _, .fixed I.address_builtins, S.world.free hx, ?_⟩
    rw [S.mem_of_fixed hx]
    exact hrep

theorem slotAddress_eq (r : Int) (i : Nat) : r + 1 + i = r + (Heap.recordHeader + i : Nat) := by
  simp only [Heap.recordHeader]
  push_cast
  omega

/-- What the evaluator finds in a slot is in the word of that slot. -/
theorem represents_slot {k i : Nat} {v : Value Site} {st : State Site} {y : Int}
    (hlookup : slot k i S.state = .ok (v, st)) (hy : S.world.word y = some (.slot k i)) :
    st = S.state ∧ Represents I S.world v (S.mem y) := by
  obtain ⟨rfl, slots, hslots, hv⟩ := slot_eq_ok hlookup
  obtain ⟨slots', v', hslots', hv', hrep⟩ := S.slot_of_word hy
  rw [hslots] at hslots'
  cases hslots'
  rw [hv] at hv'
  cases hv'
  exact ⟨rfl, hrep⟩

/-- What the evaluator looks up is in the word that the compiler resolved the name to. -/
theorem Encloses.located {name : String} {v : Value Site} {st : State Site} {env : Env Site} {scope : Nat}
    {r : Int} {limit : Nat} {res : Resolution} (hlt : scope < limit)
    (hlookup : lookup name env S.state = .ok (v, st))
    (hres : t.resolveWithin name limit scope = some res) :
    Encloses I S.world t env scope r →
    st = S.state ∧ ∃ y, Located I.layout S.mem r res y ∧ I.layout.Free y ∧
      Represents I S.world v (S.mem y)
  | .builtins hscope => by
    obtain ⟨limit, rfl⟩ : ∃ n, limit = n + 1 := ⟨limit - 1, by omega⟩
    exact (located_builtin _ hscope hlookup hres).2
  | @Encloses.globals _ _ _ names hbuiltins hscope hslots => by
    obtain ⟨limit, rfl⟩ : ∃ n, limit = n + 1 + 1 :=
      ⟨limit - 2, by simp only [ScopeTable.globals] at hlt; omega⟩
    rw [lookup] at hlookup
    rcases hi : names.idxOf? name with _ | i
    · rw [hi] at hlookup
      rw [ScopeTable.resolveWithin_outer (by rw [hscope]; exact hi) (by rw [hscope])] at hres
      obtain ⟨res', hres', rfl⟩ := Option.map_eq_some_iff.1 hres
      obtain ⟨hfixed, hfound⟩ := located_builtin I.globalRecord hbuiltins hlookup hres'
      rw [hfixed]
      exact hfound
    · rw [hi] at hlookup
      rw [ScopeTable.resolveWithin_here (by rw [hscope]; exact hi), hscope] at hres
      cases hres
      obtain ⟨hilt, -⟩ := List.idxOf?_eq_some_iff.1 hi
      have hy := hslots i hilt
      obtain ⟨hst, hrep⟩ := represents_slot hlookup hy
      refine ⟨hst, _, ?_, S.world.free hy, hrep⟩
      rw [slotAddress_eq]
      exact .fixed I.address_globals
  | @Encloses.param _ _ _ env x v' outer _ _ r' y hscope hlt' hr henv hslot hv => by
    obtain ⟨limit, rfl⟩ : ∃ n, limit = n + 1 := ⟨limit - 1, by omega⟩
    rw [lookup] at hlookup
    by_cases hx : x = name
    · rw [if_pos hx] at hlookup
      cases hlookup
      have hi : [x].idxOf? name = some 0 := by simp [List.idxOf?_cons, hx]
      rw [ScopeTable.resolveWithin_here (by rw [hscope]; exact hi), hscope] at hres
      cases hres
      refine ⟨rfl, _, .dynamic (.zero _), S.world.free hslot, ?_⟩
      change Represents I S.world v (S.mem (r + 1))
      rw [S.mem_of_fixed hslot]
      exact hv
    · rw [if_neg hx] at hlookup
      have hi : [x].idxOf? name = none := by simp [List.idxOf?_cons, hx]
      rw [ScopeTable.resolveWithin_outer (by rw [hscope]; exact hi) (by rw [hscope])] at hres
      obtain ⟨res', hres', rfl⟩ := Option.map_eq_some_iff.1 hres
      obtain ⟨hst, y, hy, hfree, hrep⟩ := henv.located (by omega) hlookup hres'
      exact ⟨hst, y, hy.fromChild (S.world.free hr) (S.mem_of_fixed hr), hfree, hrep⟩
  | @Encloses.block _ _ _ env names k outer _ _ r' hscope hlt' hr henv hslots => by
    obtain ⟨limit, rfl⟩ : ∃ n, limit = n + 1 := ⟨limit - 1, by omega⟩
    rw [lookup] at hlookup
    rcases hi : names.idxOf? name with _ | i
    · rw [hi] at hlookup
      rw [ScopeTable.resolveWithin_outer (by rw [hscope]; exact hi) (by rw [hscope])] at hres
      obtain ⟨res', hres', rfl⟩ := Option.map_eq_some_iff.1 hres
      obtain ⟨hst, y, hy, hfree, hrep⟩ := henv.located (by omega) hlookup hres'
      exact ⟨hst, y, hy.fromChild (S.world.free hr) (S.mem_of_fixed hr), hfree, hrep⟩
    · rw [hi] at hlookup
      rw [ScopeTable.resolveWithin_here (by rw [hscope]; exact hi), hscope] at hres
      cases hres
      obtain ⟨hilt, -⟩ := List.idxOf?_eq_some_iff.1 hi
      have hy := hslots i hilt
      obtain ⟨hst, hrep⟩ := represents_slot hlookup hy
      refine ⟨hst, _, ?_, S.world.free hy, hrep⟩
      rw [slotAddress_eq]
      exact .dynamic (.zero _)

/-- A variable that the evaluator finds: its operand names a word that represents the value. -/
theorem names_var {env : Env Site} {scope : Nat} {name : String} {v : Value Site} {st : State Site} {k x : Int}
    (hx : b + k = x) (hstack : I.OnStack x) (henv : Encloses I S.world t env scope (S.mem x))
    (hres : ∃ res, t.resolve scope name = some res) (hlookup : lookup name env S.state = .ok (v, st)) :
    st = S.state ∧ ∃ y, Names I.layout t scope (S.data b) (.var name k) y ∧
      Represents I S.world v (S.mem y) := by
  obtain ⟨res, hres⟩ := hres
  obtain ⟨hst, y, hy, hfree, hrep⟩ := henv.located henv.lt_size hlookup hres
  subst hx
  exact ⟨hst, y, ⟨.position, y, hy.means hres ⟨hstack.free, rfl⟩, hfree, rfl⟩, hrep⟩

/-- The name of a slot of the nearest block: its operand names the word of that slot. -/
theorem names_own {env : Env Site} {names : List String} {scope frame i : Nat} {name : String} {k x : Int}
    (hx : b + k = x) (hstack : I.OnStack x)
    (henv : Encloses I S.world t (.block names frame :: env) scope (S.mem x))
    (hi : names.idxOf? name = some i) :
    ∃ y, Names I.layout t scope (S.data b) (.var name k) y ∧
      S.world.word y = some (.slot frame i) := by
  obtain ⟨hilt, -⟩ := List.idxOf?_eq_some_iff.1 hi
  obtain ⟨limit, hsize⟩ : ∃ n, t.size = n + 1 := ⟨t.size - 1, by have := henv.lt_size; omega⟩
  subst hx
  have hreads : I.layout.Reads (S.data b).base (S.data b).mem .relative k (S.mem (b + k)) :=
    ⟨hstack.free, rfl⟩
  generalize S.mem (b + k) = r at henv hreads
  cases henv with
  | globals hbuiltins hscope hslots =>
    have hres : t.resolve ScopeTable.globals name = some (.fixed .globalScope i) := by
      rw [ScopeTable.resolve, hsize, ScopeTable.resolveWithin_here (by rw [hscope]; exact hi), hscope]
      rfl
    have hy := hslots i hilt
    refine ⟨_, ⟨.position, _, Located.means ?_ hres hreads, S.world.free hy, rfl⟩, hy⟩
    rw [slotAddress_eq]
    exact .fixed I.address_globals
  | block hscope hlt hr henv hslots =>
    have hres : t.resolve scope name = some (.dynamic 0 i) := by
      rw [ScopeTable.resolve, hsize, ScopeTable.resolveWithin_here (by rw [hscope]; exact hi), hscope]
      rfl
    have hy := hslots i hilt
    refine ⟨_, ⟨.position, _, Located.means ?_ hres hreads, S.world.free hy, rfl⟩, hy⟩
    rw [slotAddress_eq]
    exact .dynamic (.zero _)

end Simulation

end Lamcode
