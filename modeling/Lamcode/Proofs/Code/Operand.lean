import Mathlib.Data.List.Forall2
import Lamcode.Proofs.Code.Layout
import Lamcode.Proofs.Emit.Computation

/-!
# Lamcode.Proofs.Code.Operand — lowered operands hold what they mean

`Prepares` is the contract of a lowered operand: when the code in front of an instruction has run, the operand
word holds the number `raw`, and nothing has changed but scratch words of that code. Contracts compose:
operands of one instruction are prepared from left to right, and none disturbs the word of another.

`Means` gives every operand its meaning in a configuration, without any code: a mode and a number, as the
operand's constructors say. The main result, `prepares_of_means`, is that lowering keeps this meaning.
-/

namespace Lamcode

open Layout

variable {L : Layout} {base : Int} {mem : Int → Int}

/-! ## Operands that are ready -/

/-- The addresses from `a` on, `n` of them. -/
def Span (a n : Nat) (x : Nat) : Prop :=
  a ≤ x ∧ x < a + n

/-- The code of the operand puts `raw` into the operand word, wherever the code and the word stand. -/
structure Prepares (L : Layout) (base : Int) (mem : Int → Int) (l : Lowered) (raw : Int) : Prop where
  setup_eq_nil : l.isFixed = true → l.setup = []
  evaluate_eq : l.isFixed = true → l.cell.labels = [] →
    Assembly.evaluate L.addresses l.cell.word = .ok raw
  runs : ∀ {a c : Nat} {m : Machine} {q : Queue}, L.CodeAt a l.setup → L.CellAt c l.cell →
    ¬ Span a (Item.size l.setup) c → L.Matches ⟨a, base, mem, q⟩ m →
    ∃ m', Machine.Reaches Queue.host (m, q) (m', q) ∧
      L.Matches ⟨a + Item.size l.setup, base, mem, q⟩ m' ∧ m'.memory.get c = raw ∧
      L.Keeps (fun x => x = c ∨ Span a (Item.size l.setup) x) m m'

/-- A word that is known before the program runs is ready at once. -/
theorem prepares_fixed (hmem : L.Loaded mem) {mode : Mode} {w : Word} {raw : Int}
    (hw : Assembly.evaluate L.addresses w = .ok raw) :
    Prepares L base mem (.fixed mode (.plain w)) raw where
  setup_eq_nil _ := rfl
  evaluate_eq _ _ := hw
  runs := by
    intro a c m q _ hc _ hm
    obtain ⟨v, hv, hfrozen⟩ : ∃ v, Assembly.evaluate L.addresses w = .ok v ∧ L.frozen c = some v :=
      hc.2
    obtain rfl : raw = v := Except.ok.inj (hw.symm.trans hv)
    refine ⟨m, .refl _, hm, ?_, fun x _ => rfl⟩
    rw [hm.shows c (L.not_scratch_of_frozen hfrozen)]
    exact hmem hfrozen

/-- Changing the mode of an operand changes nothing in its code. -/
theorem Prepares.withMode {l : Lowered} {raw : Int} (h : Prepares L base mem l raw) (mode : Mode) :
    Prepares L base mem { l with mode } raw :=
  ⟨h.setup_eq_nil, h.evaluate_eq, h.runs⟩

/-- Operands are prepared one after the other, and the words of all of them hold in the end. -/
theorem Prepares.all {ls : List Lowered} {raws : List Int}
    (h : List.Forall₂ (Prepares L base mem) ls raws) {a c : Nat} {m : Machine} {q : Queue}
    (hcode : L.CodeAt a (ls.flatMap (·.setup))) (hcells : L.CodeAt c (ls.map fun o => .cell o.cell))
    (hc : a + Item.size (ls.flatMap (·.setup)) ≤ c) (hm : L.Matches ⟨a, base, mem, q⟩ m) :
    ∃ m', Machine.Reaches Queue.host (m, q) (m', q) ∧
      L.Matches ⟨a + Item.size (ls.flatMap (·.setup)), base, mem, q⟩ m' ∧
      (∀ i raw, raws[i]? = some raw → m'.memory.get (c + i) = raw) ∧
      L.Keeps (fun x => Span c ls.length x ∨ Span a (Item.size (ls.flatMap (·.setup))) x) m m' := by
  induction h generalizing a c m with
  | nil => exact ⟨m, .refl _, hm, by simp, fun x _ => rfl⟩
  | @cons l raw ls raws hl _ ih =>
    rw [List.flatMap_cons] at hcode hc ⊢
    rw [codeAt_append] at hcode
    rw [Item.size_append] at hc ⊢
    obtain ⟨hcell, hcells⟩ := hcells
    obtain ⟨m₁, hreach₁, hm₁, hraw, hkeeps₁⟩ :=
      hl.runs hcode.1 hcell (fun hs => by unfold Span at hs; omega) hm
    obtain ⟨m₂, hreach₂, hm₂, hraws, hkeeps₂⟩ := ih hcode.2 hcells (by omega) hm₁
    refine ⟨m₂, hreach₁.trans hreach₂, ?_, ?_, ?_⟩
    · rwa [← Nat.add_assoc]
    · rintro (_ | i) r hr
      · obtain rfl : raw = r := by simpa using hr
        rw [Nat.add_zero, hkeeps₂ c, hraw]
        rintro ⟨-, hs | hs⟩ <;> unfold Span at hs <;> omega
      · rw [show c + (i + 1) = c + 1 + i by omega]
        exact hraws i r (by simpa using hr)
    · refine hkeeps₁.trans hkeeps₂ ?_ ?_
      · rintro x (rfl | hs)
        · exact .inl ⟨Nat.le_refl _, by simp⟩
        · exact .inr (by unfold Span at hs ⊢; omega)
      · rintro x (hs | hs)
        · exact .inl (by unfold Span at hs ⊢; simp only [List.length_cons]; omega)
        · exact .inr (by unfold Span at hs ⊢; omega)

/-- When the operands of an instruction are prepared, the machine stands in front of the instruction word
and finds each operand word right behind it. -/
theorem instruction_ready (hmem : L.Loaded mem) {op : Opcode} {ls : List Lowered} {raws : List Int}
    (h : List.Forall₂ (Prepares L base mem) ls raws) {a : Nat} {m : Machine} {q : Queue}
    (hcode : L.CodeAt a (Lowered.instruction op ls)) (hm : L.Matches ⟨a, base, mem, q⟩ m) :
    ∃ m', Machine.Reaches Queue.host (m, q) (m', q) ∧
      L.Matches ⟨a + Item.size (ls.flatMap (·.setup)), base, mem, q⟩ m' ∧
      m'.memory.get m'.ip.toNat = Instruction.encode op (ls.map (·.mode)) ∧
      (∀ i raw, raws[i]? = some raw → m'.operand i = raw) ∧
      L.Keeps (Span a (Item.size (Lowered.instruction op ls))) m m' := by
  rw [Lowered.size_instruction]
  rw [Lowered.instruction, codeAt_append] at hcode
  obtain ⟨hsetup, hword, hcells⟩ := hcode
  obtain ⟨m', hreach, hm', hraws, hkeeps⟩ := Prepares.all h hsetup hcells (by omega) hm
  refine ⟨m', hreach, hm', ?_, ?_, ?_⟩
  · obtain ⟨v, hv, hfrozen⟩ : ∃ v, Assembly.evaluate L.addresses
        (.num (Instruction.encode op (ls.map (·.mode)))) = .ok v ∧ L.frozen _ = some v := hword.2
    obtain rfl := Except.ok.inj hv
    rw [Machine.toNat_ip hm'.ip hword.lt, hm'.shows _ (L.not_scratch_of_frozen hfrozen)]
    exact hmem hfrozen
  · intro i raw hraw
    have hi : i < Item.size (ls.map fun o => .cell o.cell) := by
      rw [Item.size_map_cell fun o : Lowered => o.cell, h.length_eq]
      exact (List.getElem?_eq_some_iff.1 hraw).1
    rw [Machine.operand_eq_get hm'.ip (hcells.lt hi)]
    exact hraws i raw hraw
  · refine fun x hx => hkeeps x fun hs => hx ⟨hs.1, ?_⟩
    rcases hs.2 with hs | hs <;> unfold Span at hs ⊢ <;> omega

/-! ## What an instruction finds -/

/-- The word `raw`, taken in the mode `mode`, has the value `v` on the machine, and code that writes scratch
words in the given range only does not change that. -/
def Sees (L : Layout) (range : Nat → Prop) (m : Machine) (mode : Mode) (raw v : Int) : Prop :=
  ∀ m', m'.base = m.base → L.Keeps range m m' → m'.Loads mode raw v

theorem sees_of_reads {range : Nat → Prop} {m : Machine} {mode : Mode} {raw v : Int}
    (hm : L.Shows mem m) (h : L.Reads m.base mem mode raw v) : Sees L range m mode raw v := by
  intro m' hbase hkeeps
  have hshows := hkeeps.shows hm
  cases mode with
  | immediate => exact h
  | position =>
    obtain ⟨⟨hnonneg, hlt, hscratch⟩, hv⟩ := h
    lift raw to Nat using hnonneg
    exact ⟨raw, rfl, by exact_mod_cast hlt, (hshows raw hscratch).trans hv⟩
  | relative =>
    obtain ⟨⟨hnonneg, hlt, hscratch⟩, hv⟩ := h
    obtain ⟨x, hx⟩ := Int.eq_ofNat_of_zero_le hnonneg
    rw [hx] at hlt hscratch hv
    exact ⟨x, by rw [hbase, hx], by exact_mod_cast hlt, (hshows x hscratch).trans hv⟩

theorem sees_immediate {range : Nat → Prop} {m : Machine} (v : Int) :
    Sees L range m .immediate v v :=
  fun _ _ _ => rfl

/-- An instruction with two values and a result, with the code of its operands in front of it. -/
theorem binary_runs (hmem : L.Loaded mem) {op : Opcode} {f : Int → Int → Int}
    (hf : op.binary? = some f) {l₀ l₁ l₂ : Lowered} {r₀ r₁ r₂ : Int}
    (h₀ : Prepares L base mem l₀ r₀) (h₁ : Prepares L base mem l₁ r₁)
    (h₂ : Prepares L base mem l₂ r₂) {a : Nat} {m : Machine} {q : Queue}
    (hcode : L.CodeAt a (Lowered.instruction op [l₀, l₁, l₂])) (hm : L.Matches ⟨a, base, mem, q⟩ m)
    {v₀ v₁ : Int} {x : Nat}
    (hv₀ : Sees L (Span a (Item.size (Lowered.instruction op [l₀, l₁, l₂]))) m l₀.mode r₀ v₀)
    (hv₁ : Sees L (Span a (Item.size (Lowered.instruction op [l₀, l₁, l₂]))) m l₁.mode r₁ v₁)
    (hx : m.Targets l₂.mode r₂ x) :
    ∃ m', Machine.Reaches Queue.host (m, q) (m', q) ∧
      m'.ip = .ofNat (a + Item.size (Lowered.instruction op [l₀, l₁, l₂])) ∧ m'.base = base ∧
      m'.memory.get x = f v₀ v₁ ∧
      ∀ y ≠ x, ¬ (L.scratch y ∧ Span a (Item.size (Lowered.instruction op [l₀, l₁, l₂])) y) →
        m'.memory.get y = m.memory.get y := by
  obtain ⟨m₁, hreach, hm₁, hword, hraws, hkeeps⟩ :=
    instruction_ready hmem (.cons h₀ (.cons h₁ (.cons h₂ .nil))) hcode hm
  have hbase : m₁.base = m.base := hm₁.base.trans hm.base.symm
  have htarget : m₁.Targets l₂.mode (m₁.operand 2) x := by
    rw [hraws 2 r₂ rfl]
    unfold Machine.Targets at hx ⊢
    rwa [hbase]
  have hload₀ : m₁.Loads l₀.mode (m₁.operand 0) v₀ := by
    rw [hraws 0 r₀ rfl]
    exact hv₀ m₁ hbase hkeeps
  have hload₁ : m₁.Loads l₁.mode (m₁.operand 1) v₁ := by
    rw [hraws 1 r₁ rfl]
    exact hv₁ m₁ hbase hkeeps
  have hstep : m₁.step Queue.host q = _ :=
    Machine.step_binary hf hword hload₀ hload₁ htarget
  refine ⟨_, hreach.trans (.of_step hstep), ?_, hm₁.base, ?_, ?_⟩
  · rw [Lowered.size_instruction]
    change m₁.ip + 4 = _
    rw [hm₁.ip]
    exact (UInt64.ofNat_add _ 4).symm
  · simp [Memory.get_set]
  · intro y hy hrange
    simp only [Memory.get_set, if_neg (Ne.symm hy)]
    exact hkeeps y hrange

theorem prepares_number (hmem : L.Loaded mem) (mode : Mode) (n : Int) :
    Prepares L base mem (.fixed mode (.plain (.num n))) n :=
  prepares_fixed hmem rfl

theorem prepares_wordAt (hmem : L.Loaded mem) {l : Label} {c : Nat}
    (hl : L.addresses[l.index]? = some c) : Prepares L base mem (.wordAt l) c :=
  prepares_fixed hmem (by simp only [Assembly.evaluate, hl])

/-- All forms of a copy have the same effect. -/
theorem copy_runs (hmem : L.Loaded mem) {source target : Lowered} {r r' : Int}
    (hsource : Prepares L base mem source r) (htarget : Prepares L base mem target r')
    {items : List Item} (hitems : items ∈ Emit.copyForms source target) {a : Nat} {m : Machine}
    {q : Queue} (hcode : L.CodeAt a items) (hm : L.Matches ⟨a, base, mem, q⟩ m) {v : Int} {x : Nat}
    (hv : Sees L (Span a (Item.size items)) m source.mode r v) (hx : m.Targets target.mode r' x) :
    ∃ m', Machine.Reaches Queue.host (m, q) (m', q) ∧ m'.ip = .ofNat (a + Item.size items) ∧
      m'.base = base ∧ m'.memory.get x = v ∧
      ∀ y ≠ x, ¬ (L.scratch y ∧ Span a (Item.size items) y) →
        m'.memory.get y = m.memory.get y := by
  have hzero : Prepares L base mem _ 0 := prepares_number hmem .immediate 0
  have hone : Prepares L base mem _ 1 := prepares_number hmem .immediate 1
  simp only [Emit.copyForms, List.mem_cons, List.not_mem_nil, or_false] at hitems
  rcases hitems with rfl | rfl | rfl | rfl
  · simpa using binary_runs hmem rfl hsource hzero htarget hcode hm hv (sees_immediate 0) hx
  · simpa using binary_runs hmem rfl hzero hsource htarget hcode hm (sees_immediate 0) hv hx
  · simpa using binary_runs hmem rfl hsource hone htarget hcode hm hv (sees_immediate 1) hx
  · simpa using binary_runs hmem rfl hone hsource htarget hcode hm (sees_immediate 1) hv hx

/-- The word that a label stands for is a target wherever the labelled cell stands. -/
theorem targets_of_cellAt {c : Nat} {l : Label} {w : Word} (hc : L.CellAt c (.labeled w l))
    (m : Machine) :
    L.addresses[l.index]? = some c ∧ L.scratch c ∧ m.Targets .position c c := by
  have hscratch : L.scratch c := hc.2
  exact ⟨hc.1 l (by simp [Cell.labeled]), hscratch, rfl, by exact_mod_cast L.lt_of_scratch hscratch⟩

/-- A data word to store to is a target of the machine. -/
theorem targets_of_stores {m : Machine} {mode : Mode} {raw x : Int} (hbase : m.base = base)
    (h : L.Stores base mode raw x) :
    L.Free x ∧ ∃ y : Nat, x = y ∧ m.Targets mode raw y := by
  cases mode with
  | immediate => exact h.elim
  | position =>
    obtain ⟨hfree, rfl⟩ := h
    obtain ⟨y, rfl⟩ := Int.eq_ofNat_of_zero_le hfree.1
    exact ⟨hfree, y, rfl, rfl, by exact_mod_cast hfree.2.1⟩
  | relative =>
    obtain ⟨hfree, hx⟩ := h
    obtain ⟨y, rfl⟩ := Int.eq_ofNat_of_zero_le hfree.1
    exact ⟨hfree, y, rfl, by rw [hbase]; exact hx, by exact_mod_cast hfree.2.1⟩

/-- The data after a store, where nothing else but scratch words changed. -/
theorem shows_update {range : Nat → Prop} {m m' : Machine} {x : Nat} {v : Int}
    (hm : L.Shows mem m) (hx : m'.memory.get x = v)
    (h : ∀ y ≠ x, ¬ (L.scratch y ∧ range y) → m'.memory.get y = m.memory.get y) :
    L.Shows (Function.update mem x v) m' := by
  intro y hy
  by_cases hyx : y = x
  · subst hyx
    rw [Function.update_self, hx]
  · have hne : (y : Int) ≠ x := by exact_mod_cast hyx
    rw [Function.update_of_ne hne, h y hyx fun hs => hy hs.1, hm y hy]

/-- What holds after code that ends by writing the word `c`, put in the form of a contract. -/
theorem keeps_of_written {c a n : Nat} {m m' : Machine} (hc : L.scratch c)
    (h : ∀ y ≠ c, ¬ (L.scratch y ∧ Span a n y) → m'.memory.get y = m.memory.get y) :
    L.Keeps (fun x => x = c ∨ Span a n x) m m' := by
  intro x hx
  refine h x ?_ fun hs => hx ⟨hs.1, .inr hs.2⟩
  rintro rfl
  exact hx ⟨hc, .inl rfl⟩

theorem matches_of_keeps {range : Nat → Prop} {a b : Nat} {q : Queue} {m m' : Machine}
    (hm : L.Matches ⟨a, base, mem, q⟩ m) (hip : m'.ip = .ofNat b) (hbase : m'.base = base)
    (hkeeps : L.Keeps range m m') : L.Matches ⟨b, base, mem, q⟩ m' :=
  ⟨hip, hbase, hkeeps.shows hm.shows⟩

/-- A word that a copy writes holds what was copied. -/
theorem prepares_copied (hmem : L.Loaded mem) {source : Lowered} {r v : Int} (mode : Mode)
    (hsource : Prepares L base mem source r) (hv : L.Reads base mem source.mode r v) {tag : Label}
    {setup : List Item} (hsetup : setup ∈ Emit.copyForms source (.wordAt tag)) :
    Prepares L base mem (.written mode tag setup) v where
  setup_eq_nil h := nomatch h
  evaluate_eq h := nomatch h
  runs := by
    intro a c m q hcode hc hout hm
    obtain ⟨htag, hscratch, hx⟩ := targets_of_cellAt hc m
    have hsees : Sees L (Span a (Item.size setup)) m source.mode r v :=
      sees_of_reads hm.shows (by rw [hm.base]; exact hv)
    obtain ⟨m', hreach, hip, hbase, hget, hrest⟩ :=
      copy_runs hmem hsource (prepares_wordAt hmem htag) hsetup hcode hm hsees hx
    have hkeeps := keeps_of_written hscratch hrest
    exact ⟨m', hreach, matches_of_keeps hm hip hbase hkeeps, hget, hkeeps⟩

/-- A word that an addition writes holds the sum. -/
theorem prepares_added (hmem : L.Loaded mem) {l amount : Lowered} {r r' v : Int} (mode : Mode)
    (hl : Prepares L base mem l r) (hamount : Prepares L base mem amount r')
    (hv : L.Reads base mem amount.mode r' v) {tag : Label} :
    Prepares L base mem
      (.written mode tag
        (Lowered.instruction .add [{ l with mode := .immediate }, amount, .wordAt tag]))
      (r + v) where
  setup_eq_nil h := nomatch h
  evaluate_eq h := nomatch h
  runs := by
    intro a c m q hcode hc hout hm
    obtain ⟨htag, hscratch, hx⟩ := targets_of_cellAt hc m
    have hsees : Sees L (Span a (Item.size (Lowered.instruction .add
        [{ l with mode := .immediate }, amount, .wordAt tag]))) m amount.mode r' v :=
      sees_of_reads hm.shows (by rw [hm.base]; exact hv)
    obtain ⟨m', hreach, hip, hbase, hget, hrest⟩ :=
      binary_runs hmem rfl (hl.withMode .immediate) hamount (prepares_wordAt hmem htag) hcode hm
        (sees_immediate r) hsees hx
    have hkeeps := keeps_of_written hscratch hrest
    exact ⟨m', hreach, matches_of_keeps hm hip hbase hkeeps, hget, hkeeps⟩

/-! ## Following parent records -/

/-- Following `n` parent pointers leads from the record at `r` to the one at `r'`. -/
inductive Climbs (L : Layout) (mem : Int → Int) : Nat → Int → Int → Prop
  | zero (r : Int) : Climbs L mem 0 r r
  | succ {n : Nat} {r r' : Int} : L.Free r → Climbs L mem n (mem r) r' → Climbs L mem (n + 1) r r'

/-- A copy as a step between configurations. -/
theorem copyForms_leads (hmem : L.Loaded mem) {source target : Lowered} {r r' : Int}
    (hsource : Prepares L base mem source r) (htarget : Prepares L base mem target r')
    {items : List Item} (hitems : items ∈ Emit.copyForms source target) {a : Nat}
    (hcode : L.CodeAt a items) {v x : Int} (hv : L.Reads base mem source.mode r v)
    (hx : L.Stores base target.mode r' x) (q : Queue) :
    L.Leads (Span a (Item.size items)) ⟨a, base, mem, q⟩
      ⟨a + Item.size items, base, Function.update mem x v, q⟩ := by
  intro m hm
  have hsees : Sees L (Span a (Item.size items)) m source.mode r v :=
    sees_of_reads hm.shows (by rw [hm.base]; exact hv)
  obtain ⟨hfree, x, rfl, htargets⟩ := targets_of_stores hm.base hx
  obtain ⟨m', hreach, hip, hbase, hget, hrest⟩ :=
    copy_runs hmem hsource htarget hitems hcode hm hsees htargets
  exact ⟨m', hreach, ⟨hip, hbase, shows_update hm.shows hget hrest⟩,
    fun y hy hrange => hrest y (fun hyx => hfree.2.2 (hyx ▸ hy)) fun hs => hrange hs.2⟩

/-- While the address of a variable is put together in the word at `c`, that word counts as data; each parent
that is followed replaces the record in it by the one around it. -/
theorem climb_leads (hmem : L.Loaded mem) {tag : Label} {c : Nat}
    (htag : L.addresses[tag.index]? = some c) (hscratch : L.scratch c) {t : ScopeTable} {site : Site}
    {n : Nat} {r r' : Int} (hclimb : Climbs L mem n r r') {items : List Item}
    (hitems : Emit.Emits t site (Emit.followParents tag n) items) {a : Nat}
    (hcode : (L.reveal c).CodeAt a items) (q : Queue) :
    (L.reveal c).Leads (Span a (Item.size items)) ⟨a, base, Function.update mem c r, q⟩
      ⟨a + Item.size items, base, Function.update mem c r', q⟩ := by
  induction hclimb generalizing items a with
  | zero r =>
    obtain rfl := hitems.followParents_zero
    exact .refl _ _
  | @succ n r r' hfree _ ih =>
    obtain ⟨up, load, code, more, hload, hcopy, hmore, rfl⟩ := hitems.followParents_succ
    rw [codeAt_append] at hcode
    have hc : (L.reveal c).Free c :=
      ⟨Int.natCast_nonneg c, L.lt_of_scratch hscratch, fun hs => hs.2 rfl⟩
    have hne : r ≠ c := fun h => hfree.2.2 (h ▸ hscratch)
    have hmem' := hmem.reveal hscratch r
    have hpointer : Prepares (L.reveal c) base _ (.wordAt tag) c := prepares_wordAt hmem' htag
    have hup : Prepares (L.reveal c) base (Function.update mem c r) (.written .position up load) r :=
      prepares_copied hmem' .position hpointer ⟨hc, Function.update_self ..⟩ hload
    have hstep := copyForms_leads hmem' hup hpointer hcopy hcode.1
      (v := mem r) ⟨hfree.reveal c, Function.update_of_ne hne ..⟩ ⟨hc, rfl⟩ q
    rw [Function.update_idem] at hstep
    have hrest := ih hmore hcode.2
    rw [Item.size_append, ← Nat.add_assoc]
    refine (hstep.mono ?_).trans (hrest.mono ?_) <;> intro x hx <;> unfold Span at hx ⊢ <;> omega

/-- The word that a dynamic variable is lowered to holds the address of its slot. -/
theorem prepares_dynamic (hmem : L.Loaded mem) {t : ScopeTable} {site : Site} {scopeSlot : Int}
    {tag add : Label} {levelsUp offset : Nat} {start climb store : List Item} {r r' : Int}
    (hscope : L.Reads base mem .relative scopeSlot r) (hclimbs : Climbs L mem levelsUp r r')
    (hstart : start ∈ Emit.copyForms (.fixed .relative (.plain (.num scopeSlot))) (.wordAt tag))
    (hclimb : Emit.Emits t site (Emit.followParents tag levelsUp) climb)
    (hstore : store ∈ Emit.copyForms
      (.written .immediate add (Lowered.instruction .add
        [.fixed .immediate (.plain (.num (Heap.recordHeader + offset : Nat))), .wordAt tag,
          .wordAt add]))
      (.wordAt tag)) :
    Prepares L base mem (.written .position tag (start ++ climb ++ store))
      (r' + (Heap.recordHeader + offset : Nat)) where
  setup_eq_nil h := nomatch h
  evaluate_eq h := nomatch h
  runs := by
    intro a c m q hcode hcell hout hm
    obtain ⟨htag, hscratch, -⟩ := targets_of_cellAt hcell m
    have hcode' : (L.reveal c).CodeAt a (start ++ climb ++ store) :=
      CodeAt.reveal hcode (by
        change ¬ Span a (Item.size (start ++ climb ++ store)) c at hout
        unfold Span at hout
        omega)
    rw [codeAt_append, codeAt_append] at hcode'
    obtain ⟨⟨hcode₁, hcode₂⟩, hcode₃⟩ := hcode'
    have hc : (L.reveal c).Free c :=
      ⟨Int.natCast_nonneg c, L.lt_of_scratch hscratch, fun hs => hs.2 rfl⟩
    have hne : base + scopeSlot ≠ c := fun h => hscope.1.2.2 (h ▸ hscratch)
    -- the scope pointer is copied into the word
    have hmem₀ := hmem.reveal hscratch (m.memory.get c)
    have hfirst := copyForms_leads hmem₀ (prepares_number hmem₀ .relative scopeSlot)
      (prepares_wordAt hmem₀ htag) hstart hcode₁ (v := r)
      ⟨hscope.1.reveal c, (Function.update_of_ne hne ..).trans hscope.2⟩ ⟨hc, rfl⟩ q
    rw [Function.update_idem] at hfirst
    -- parents are followed in it
    have hsecond : (L.reveal c).Leads _ ⟨_, base, _, q⟩ _ :=
      climb_leads hmem htag hscratch hclimbs hclimb hcode₂ q
    -- and the offset of the slot is added to it
    have hmem₂ := hmem.reveal hscratch r'
    have hslot : Prepares (L.reveal c) base _ (.written .immediate add _) _ :=
      prepares_added hmem₂ .immediate
        (prepares_number hmem₂ .immediate (Heap.recordHeader + offset : Nat))
        (prepares_wordAt hmem₂ htag) ⟨hc, Function.update_self ..⟩
    have hthird := copyForms_leads hmem₂ hslot (prepares_wordAt hmem₂ htag) hstore hcode₃
      rfl ⟨hc, rfl⟩ q
    rw [Function.update_idem, Int.add_comm] at hthird
    have hsize : Item.size (start ++ climb ++ store) =
        Item.size start + Item.size climb + Item.size store := by
      rw [Item.size_append, Item.size_append]
    have hall : (L.reveal c).Leads (Span a (Item.size (start ++ climb ++ store)))
        ⟨a, base, Function.update mem c (m.memory.get c), q⟩
        ⟨a + Item.size (start ++ climb ++ store), base,
          Function.update mem c (r' + (Heap.recordHeader + offset : Nat)), q⟩ := by
      rw [Item.size_append] at hcode₃ hthird
      rw [hsize, ← Nat.add_assoc, ← Nat.add_assoc]
      rw [← Nat.add_assoc] at hthird
      refine (hfirst.mono ?_).trans ((hsecond.mono ?_).trans (hthird.mono ?_)) <;> intro x hx <;>
        unfold Span at hx ⊢ <;> omega
    obtain ⟨m', hreach, hm', hkept⟩ := hall m hm.reveal
    obtain ⟨hm'', hget⟩ := Matches.of_reveal hscratch hm'
    refine ⟨m', hreach, hm'', hget, fun x hx => ?_⟩
    by_cases hs : L.scratch x
    · have hxc : (x : Int) ≠ c := fun h => hx ⟨hs, .inl (by exact_mod_cast h)⟩
      exact hkept x ⟨hs, hxc⟩ fun hspan => hx ⟨hs, .inr hspan⟩
    · rw [hm''.shows x hs, hm.shows x hs]

/-! ## Meanings -/

/-- What an operand means where names resolve from `scope`: a mode and a number. -/
inductive Means (L : Layout) (t : ScopeTable) (scope : Nat) (base : Int) (mem : Int → Int) :
    Operand → Mode → Int → Prop
  | const {mode : Mode} {w : Word} {raw : Int} :
    Assembly.evaluate L.addresses w = .ok raw →
    Means L t scope base mem (.const mode (.plain w)) mode raw
  | offset {o amount : Operand} {mode mode' : Mode} {raw raw' v : Int} :
    Means L t scope base mem o mode raw → Means L t scope base mem amount mode' raw' →
    L.Reads base mem mode' raw' v → Means L t scope base mem (.offset o amount) mode (raw + v)
  | deref {o : Operand} {raw v : Int} :
    Means L t scope base mem o .position raw → L.Reads base mem .position raw v →
    Means L t scope base mem (.deref o) .immediate v
  | relabel {o : Operand} {mode mode' : Mode} {raw : Int} :
    Means L t scope base mem o mode raw → Means L t scope base mem (.relabel mode' o) mode' raw
  | spill {o : Operand} {raw v : Int} :
    Means L t scope base mem o .relative raw → L.Reads base mem .relative raw v →
    Means L t scope base mem (.spill o) .position v
  /-- A slot of a record at a fixed address. -/
  | static {name : String} {scopeSlot : Int} {location : Label} {offset a : Nat} :
    t.resolve scope name = some (.fixed location offset) →
    L.addresses[location.index]? = some a →
    Means L t scope base mem (.var name scopeSlot) .position (a + (Heap.recordHeader + offset : Nat))
  /-- A slot of a record that is found from the scope pointer. -/
  | dynamic {name : String} {scopeSlot r r' : Int} {levelsUp offset : Nat} :
    t.resolve scope name = some (.dynamic levelsUp offset) →
    L.Reads base mem .relative scopeSlot r → Climbs L mem levelsUp r r' →
    Means L t scope base mem (.var name scopeSlot) .position (r' + (Heap.recordHeader + offset : Nat))

/-- Lowering an operand keeps its meaning. -/
theorem prepares_of_means (hmem : L.Loaded mem) {t : ScopeTable} {site : Site} {o : Operand}
    {mode : Mode} {raw : Int} (h : Means L t site.scope base mem o mode raw) {l : Lowered}
    (hl : Emit.Emits t site (Emit.lower o) l) : l.mode = mode ∧ Prepares L base mem l raw := by
  induction h generalizing l with
  | const hw =>
    obtain rfl := hl.pure
    exact ⟨rfl, prepares_fixed hmem hw⟩
  | @offset o amount mode mode' raw raw' v _ _ hreads iho iha =>
    obtain ⟨lo, hlo, hl⟩ := hl.bind (Emit.Moves.lower _)
    obtain ⟨la, hla, hl⟩ := hl.bind (Emit.Moves.lower _)
    obtain ⟨rfl, ho⟩ := iho hlo
    obtain ⟨rfl, ha⟩ := iha hla
    rcases hl.offsetLowered with ⟨hof, haf, him, hol, hal, rfl⟩ | ⟨tag, rfl⟩
    · refine ⟨rfl, prepares_fixed hmem ?_⟩
      rw [him] at hreads
      obtain rfl : raw' = v := hreads
      simp [Assembly.evaluate, Assembly.evaluateSum, ho.evaluate_eq hof hol, ha.evaluate_eq haf hal]
    · exact ⟨rfl, prepares_added hmem _ ho ha hreads⟩
  | deref _ hreads ih =>
    obtain ⟨lo, hlo, hl⟩ := hl.bind (Emit.Moves.lower _)
    obtain ⟨hmode, ho⟩ := ih hlo
    obtain ⟨-, tag, setup, hsetup, rfl⟩ := hl.derefLowered
    exact ⟨rfl, prepares_copied hmem _ ho (by rw [hmode]; exact hreads) hsetup⟩
  | relabel _ ih =>
    obtain ⟨lo, hlo, hl⟩ := hl.bind (Emit.Moves.lower _)
    obtain ⟨-, ho⟩ := ih hlo
    obtain ⟨-, rfl⟩ := hl.relabelLowered
    exact ⟨rfl, ho.withMode _⟩
  | spill _ hreads ih =>
    obtain ⟨lo, hlo, hl⟩ := hl.bind (Emit.Moves.lower _)
    obtain ⟨hmode, ho⟩ := ih hlo
    obtain ⟨-, tag, setup, hsetup, rfl⟩ := hl.spillLowered
    exact ⟨rfl, prepares_copied hmem _ ho (by rw [hmode]; exact hreads) hsetup⟩
  | static hresolve ha =>
    rcases hl.varLowered with ⟨location, offset, hresolve', rfl⟩ | ⟨_, _, _, _, _, _, _, hresolve', -⟩
    · rw [hresolve] at hresolve'
      cases hresolve'
      refine ⟨rfl, prepares_fixed hmem ?_⟩
      simp [Assembly.evaluate, Assembly.evaluateSum, ha]
    · rw [hresolve] at hresolve'
      cases hresolve'
  | dynamic hresolve hscope hclimbs =>
    rcases hl.varLowered with ⟨location, offset, hresolve', -⟩ |
      ⟨levelsUp, offset, tag, start, climb, add, store, hresolve', hstart, hclimb, hstore, rfl⟩
    · rw [hresolve] at hresolve'
      cases hresolve'
    · rw [hresolve] at hresolve'
      cases hresolve'
      exact ⟨rfl, prepares_dynamic hmem hscope hclimbs hstart hclimb hstore⟩

end Lamcode
