import Mathlib.Data.List.Nodup
import Lamcode.Proofs.Emit.Lowering

/-!
# Lamcode.Proofs.Emit.Renaming — lowering depends on labels only through their numbers

An operand that is lowered with two label tables comes out with the same word and the same code, but for the labels that
were handed out on the way: the label behind the first table becomes the one behind the second, and so on
(`Label.shift`). `Parallel` follows two such runs through `bind`, from one step of the lowering to the next. The account
of labels is kept with it: a word that is known in advance needs no label, and every label that is handed out has its
place.
-/

namespace Lamcode

/-! ## Renaming -/

/-- The label that takes the place of another one when the labels from `n` on are numbered from `m` on. -/
def Label.shift (n m : Nat) (l : Label) : Label :=
  if l.index < n then l else ⟨m + (l.index - n)⟩

mutual

/-- The word with other labels. -/
def Word.rename (σ : Label → Label) : Word → Word
  | .num n => .num n
  | .addr l => .addr (σ l)
  | .sum parts => .sum (renameAll σ parts)

/-- The words with other labels. -/
def Word.renameAll (σ : Label → Label) : List Word → List Word
  | [] => []
  | w :: rest => w.rename σ :: renameAll σ rest

end

/-- The cell with other labels. -/
def Cell.rename (σ : Label → Label) (c : Cell) : Cell :=
  ⟨c.word.rename σ, c.labels.map σ⟩

/-- The item with other labels. -/
def Item.rename (σ : Label → Label) : Item → Item
  | .cell c => .cell (c.rename σ)
  | .hanging l => .hanging (σ l)

/-- The lowered operand with other labels, in its word and in its code. -/
def Lowered.rename (σ : Label → Label) (l : Lowered) : Lowered :=
  ⟨l.mode, l.cell.rename σ, l.isFixed, l.setup.map (Item.rename σ)⟩

/-- The labels that stand for the word of an operand and for the words of its code. -/
def Lowered.labels (l : Lowered) : List Label :=
  l.cell.labels ++ Item.labels l.setup

section

variable {σ : Label → Label}

mutual

theorem Word.rename_eq_self : ∀ {w : Word}, (∀ l ∈ w.refs, σ l = l) → w.rename σ = w
  | .num _, _ => rfl
  | .addr l, h => congrArg Word.addr (h l List.mem_cons_self)
  | .sum _, h => congrArg Word.sum (Word.renameAll_eq_self h)

theorem Word.renameAll_eq_self : ∀ {ws : List Word}, (∀ l ∈ Word.refsAll ws, σ l = l) → Word.renameAll σ ws = ws
  | [], _ => rfl
  | w :: ws, h => by
    rw [Word.renameAll, Word.rename_eq_self fun l hl => h l (List.mem_append_left _ hl),
      Word.renameAll_eq_self fun l hl => h l (List.mem_append_right _ hl)]

end

theorem Cell.rename_eq_self {c : Cell} (hrefs : ∀ l ∈ c.word.refs, σ l = l) (hlabels : ∀ l ∈ c.labels, σ l = l) :
    c.rename σ = c := by
  rw [Cell.rename, Word.rename_eq_self hrefs, List.map_congr_left hlabels, List.map_id']

@[simp] theorem Cell.isLabeled_rename (c : Cell) : (c.rename σ).isLabeled = c.isLabeled := by
  simp [Cell.isLabeled, Cell.rename]

@[simp] theorem Item.isCell_rename (i : Item) : (i.rename σ).isCell = i.isCell := by
  cases i <;> rfl

theorem Item.carried_rename (i : Item) : (i.rename σ).carried = i.carried.map σ := by
  cases i <;> rfl

theorem Lowered.labels_rename (l : Lowered) : (l.rename σ).labels = l.labels.map σ := by
  simp only [labels, rename, Cell.rename, Item.labels, List.map_append, List.flatMap_map, List.map_flatMap,
    Item.carried_rename]

/-- Renaming an instruction renames its operands. -/
theorem Lowered.map_rename_instruction (op : Opcode) (ls : List Lowered) :
    (instruction op ls).map (Item.rename σ) = instruction op (ls.map (rename σ)) := by
  simp [instruction, rename, Item.rename, Item.word, Cell.rename, Cell.plain, Word.rename, List.map_flatMap,
    List.flatMap_map, Function.comp_def]

end

namespace Lowered

/-- An instruction stands under the labels of its operands. -/
theorem labels_instruction (op : Opcode) (ls : List Lowered) :
    (Item.labels (instruction op ls)).Perm (ls.flatMap labels) := by
  have hword : Item.carried (.word (.num (Instruction.encode op (ls.map (·.mode))))) = [] := rfl
  rw [instruction, Item.labels_append, Item.labels, Item.labels, List.flatMap_cons, hword, List.nil_append,
    List.flatMap_assoc, List.flatMap_map]
  exact List.perm_append_comm.trans (List.flatMap_append_perm _ _ _)

theorem isCell_instruction (op : Opcode) {ls : List Lowered} (h : ∀ l ∈ ls, ∀ i ∈ l.setup, i.isCell = true) :
    ∀ i ∈ instruction op ls, i.isCell = true := by
  intro i hi
  rw [instruction, List.mem_append, List.mem_cons, List.mem_map] at hi
  rcases hi with hi | rfl | ⟨l, -, rfl⟩
  · obtain ⟨l, hl, hi⟩ := List.mem_flatMap.1 hi
    exact h l hl i hi
  · rfl
  · rfl

end Lowered

/-- The code is the other one with other labels, stands under these labels, and consists of words only. -/
structure RenamedCode (σ : Label → Label) (labels : List Label) (xs xs' : List Item) : Prop where
  eq_map : xs' = xs.map (Item.rename σ)
  labels_perm : (Item.labels xs).Perm labels
  cells : ∀ i ∈ xs, i.isCell = true

/-- The operand is the other one with other labels, in its word and in its code. -/
structure Renamed (σ : Label → Label) (labels : List Label) (x x' : Lowered) : Prop where
  eq_rename : x' = x.rename σ
  labels_perm : x.labels.Perm labels
  cells : ∀ i ∈ x.setup, i.isCell = true

namespace RenamedCode

variable {σ : Label → Label} {labels labels' : List Label} {xs xs' ys ys' : List Item}

theorem nil (σ : Label → Label) : RenamedCode σ [] [] [] :=
  ⟨rfl, .nil, by simp⟩

theorem append (h : RenamedCode σ labels xs xs') (k : RenamedCode σ labels' ys ys') :
    RenamedCode σ (labels ++ labels') (xs ++ ys) (xs' ++ ys') where
  eq_map := by rw [h.eq_map, k.eq_map, List.map_append]
  labels_perm := by
    rw [Item.labels_append]
    exact h.labels_perm.append k.labels_perm
  cells i hi := (List.mem_append.1 hi).elim (h.cells i) (k.cells i)

end RenamedCode

/-- The code of a copy without a seed. -/
def Emit.copied (source target : Lowered) : List Item :=
  Lowered.instruction .add [source, .fixed .immediate (.plain (.num 0)), target]

namespace Renamed

variable {σ : Label → Label} {labels labels₁ labels₂ labels₃ : List Label} {x x' a a' b b' c c' : Lowered}

theorem mode_eq (h : Renamed σ labels x x') : x'.mode = x.mode := by
  rw [h.eq_rename, Lowered.rename]

theorem isFixed_eq (h : Renamed σ labels x x') : x'.isFixed = x.isFixed := by
  rw [h.eq_rename, Lowered.rename]

theorem cell_eq (h : Renamed σ labels x x') : x'.cell = x.cell.rename σ := by
  rw [h.eq_rename, Lowered.rename]

theorem perm (h : Renamed σ labels x x') (hlabels : labels.Perm labels₁) : Renamed σ labels₁ x x' :=
  { h with labels_perm := h.labels_perm.trans hlabels }

theorem withMode (h : Renamed σ labels x x') (mode : Mode) : Renamed σ labels { x with mode } { x' with mode } where
  eq_rename := by
    rw [h.eq_rename]
    rfl
  labels_perm := h.labels_perm
  cells := h.cells

theorem labels_perm_map (h : Renamed σ labels x x') : x'.labels.Perm (labels.map σ) := by
  rw [h.eq_rename, Lowered.labels_rename]
  exact h.labels_perm.map σ

theorem cells' (h : Renamed σ labels x x') : ∀ i ∈ x'.setup, i.isCell = true := by
  rw [h.eq_rename]
  intro i hi
  obtain ⟨j, hj, rfl⟩ := List.mem_map.1 hi
  rw [Item.isCell_rename]
  exact h.cells j hj

/-- A word that needs no code. -/
theorem fixed (mode : Mode) (cell : Cell) {cell' : Cell} (h : cell' = cell.rename σ) :
    Renamed σ cell.labels (.fixed mode cell) (.fixed mode cell') where
  eq_rename := by
    rw [h]
    rfl
  labels_perm := by simp [Lowered.labels, Lowered.fixed, Item.labels]
  cells := by simp [Lowered.fixed]

theorem number (mode : Mode) (k : Int) :
    Renamed σ [] (.fixed mode (.plain (.num k))) (.fixed mode (.plain (.num k))) := by
  refine fixed mode (.plain (.num k)) ?_
  simp [Cell.rename, Cell.plain, Word.rename]

theorem wordAt {tag tag' : Label} (h : σ tag = tag') : Renamed σ [] (.wordAt tag) (.wordAt tag') := by
  refine fixed .position (.plain (.addr tag)) ?_
  simp [Cell.rename, Cell.plain, Word.rename, h]

/-- A word that the code in front of it writes, under a label of its own. -/
theorem written (mode : Mode) {tag tag' : Label} (htag : σ tag = tag') {code code' : List Item}
    (h : RenamedCode σ labels code code') :
    Renamed σ (labels ++ [tag]) (.written mode tag code) (.written mode tag' code') where
  eq_rename := by
    rw [h.eq_map, ← htag]
    rfl
  labels_perm := (List.perm_append_singleton tag (Item.labels code)).symm.trans (h.labels_perm.append_right [tag])
  cells := h.cells

/-- An instruction has the labels of its operands. -/
theorem instruction (op : Opcode) (ha : Renamed σ labels₁ a a') (hb : Renamed σ labels₂ b b')
    (hc : Renamed σ labels₃ c c') :
    RenamedCode σ (labels₁ ++ labels₂ ++ labels₃) (Lowered.instruction op [a, b, c])
      (Lowered.instruction op [a', b', c']) where
  eq_map := by
    rw [Lowered.map_rename_instruction, ha.eq_rename, hb.eq_rename, hc.eq_rename]
    rfl
  labels_perm := by
    refine (Lowered.labels_instruction op [a, b, c]).trans ?_
    simpa using (ha.labels_perm.append hb.labels_perm).append hc.labels_perm
  cells := Lowered.isCell_instruction op (by simpa using ⟨ha.cells, hb.cells, hc.cells⟩)

theorem copied (ha : Renamed σ labels₁ a a') (hb : Renamed σ labels₂ b b') :
    RenamedCode σ (labels₁ ++ labels₂) (Emit.copied a b) (Emit.copied a' b') := by
  have := instruction .add ha (number .immediate 0) hb
  rwa [List.append_nil] at this

end Renamed

/-! ## Two label tables -/

namespace LabelTable

/-- The table with more labels behind. -/
def extend (L : LabelTable) (names : List String) : LabelTable :=
  ⟨L.names ++ names.toArray⟩

variable (L : LabelTable)

@[simp] theorem size_extend (names : List String) : (L.extend names).size = L.size + names.length := by
  simp [extend, size]

@[simp] theorem extend_nil : L.extend [] = L := by
  simp [extend]

theorem extend_extend (names names' : List String) : (L.extend names).extend names' = L.extend (names ++ names') := by
  simp [extend, Array.append_assoc]

theorem extend_inj {names names' : List String} (h : L.extend names = L.extend names') : names = names' := by
  simpa [extend] using congrArg (fun K : LabelTable => K.names.toList) h

theorem fresh_eq (name : String) : L.fresh name = (⟨L.size⟩, L.extend [name]) := by
  simp [fresh, extend]

end LabelTable

/-- The labels behind the first table become those behind the second one, in order. -/
def Renumbers (σ : Label → Label) (L L' : LabelTable) : Prop :=
  ∀ i, σ ⟨L.size + i⟩ = ⟨L'.size + i⟩

theorem Renumbers.extend {σ : Label → Label} {L L' : LabelTable} (h : Renumbers σ L L') (names : List String) :
    Renumbers σ (L.extend names) (L'.extend names) := by
  intro i
  rw [LabelTable.size_extend, LabelTable.size_extend, Nat.add_assoc, Nat.add_assoc]
  exact h _

theorem Renumbers.map_range {σ : Label → Label} {L L' : LabelTable} (h : Renumbers σ L L') (k : Nat) :
    (Label.range L.size (L.size + k)).map σ = Label.range L'.size (L'.size + k) := by
  rw [Label.range, Label.range, Nat.add_sub_cancel_left, Nat.add_sub_cancel_left, List.map_map,
    List.range'_eq_map_range, List.range'_eq_map_range, List.map_map, List.map_map]
  exact List.map_congr_left fun i _ => h i

theorem Renumbers.shift (L L' : LabelTable) : Renumbers (Label.shift L.size L'.size) L L' := by
  intro i
  rw [Label.shift, if_neg (by simp), Nat.add_sub_cancel_left]

namespace Emit

variable {β γ : Type}

/-- Run at one site with the same scopes, without a seed and with two label tables, both computations fail with the same
error, or both succeed and come out with what `P` relates. Either way they leave the scopes and hand out labels with the
same names. -/
def Parallel (t : ScopeTable) (site : Site) (L L' : LabelTable) (e e' : Emit β) (P : List String → β → β → Prop) :
    Prop :=
  ∃ names : List String,
    (∃ err, e.runAt site ⟨L, t, .first⟩ = (.error err, ⟨L.extend names, t, .first⟩) ∧
      e'.runAt site ⟨L', t, .first⟩ = (.error err, ⟨L'.extend names, t, .first⟩)) ∨
    ∃ x x', e.runAt site ⟨L, t, .first⟩ = (.ok x, ⟨L.extend names, t, .first⟩) ∧
      e'.runAt site ⟨L', t, .first⟩ = (.ok x', ⟨L'.extend names, t, .first⟩) ∧ P names x x'

namespace Parallel

variable {t : ScopeTable} {site : Site} {L L' : LabelTable} {e e' : Emit β} {f f' : β → Emit γ}
  {P : List String → β → β → Prop} {Q : List String → γ → γ → Prop}

theorem pure {x x' : β} (h : P [] x x') : Parallel t site L L' (Pure.pure x) (Pure.pure x') P := by
  refine ⟨[], .inr ⟨x, x', ?_, ?_, h⟩⟩
  · rw [LabelTable.extend_nil, runAt_pure]
  · rw [LabelTable.extend_nil, runAt_pure]

theorem throw (err : EmitError) : Parallel t site L L' (throw err) (throw err) P := by
  refine ⟨[], .inl ⟨err, ?_, ?_⟩⟩
  · rw [LabelTable.extend_nil, runAt_throw]
  · rw [LabelTable.extend_nil, runAt_throw]

theorem bind (h : Parallel t site L L' e e' P)
    (k : ∀ names x x', P names x x' → Parallel t site (L.extend names) (L'.extend names) (f x) (f' x') fun more y y' =>
      Q (names ++ more) y y') : Parallel t site L L' (e >>= f) (e' >>= f') Q := by
  obtain ⟨names, ⟨err, h, h'⟩ | ⟨x, x', h, h', hP⟩⟩ := h
  · exact ⟨names, .inl ⟨err, runAt_bind_error h f, runAt_bind_error h' f'⟩⟩
  · obtain ⟨more, hk⟩ := k names x x' hP
    rw [LabelTable.extend_extend, LabelTable.extend_extend] at hk
    rw [← runAt_bind_ok h, ← runAt_bind_ok h'] at hk
    exact ⟨names ++ more, hk⟩

theorem throw_bind (err : EmitError) :
    Parallel t site L L' (MonadExcept.throw err >>= f) (MonadExcept.throw err >>= f') Q :=
  bind (P := fun _ _ _ => False) (throw err) fun _ _ _ h => h.elim

theorem mono {P' : List String → β → β → Prop} (h : Parallel t site L L' e e' P)
    (hP : ∀ names x x', P names x x' → P' names x x') : Parallel t site L L' e e' P' := by
  obtain ⟨names, herror | ⟨x, x', h, h', hx⟩⟩ := h
  · exact ⟨names, .inl herror⟩
  · exact ⟨names, .inr ⟨x, x', h, h', hP _ _ _ hx⟩⟩

theorem fresh {name : String} {f f' : Label → Emit γ}
    (h : Parallel t site (L.extend [name]) (L'.extend [name]) (f ⟨L.size⟩) (f' ⟨L'.size⟩) fun more =>
      Q (name :: more)) :
    Parallel t site L L' (Emit.fresh name >>= f) (Emit.fresh name >>= f') Q := by
  refine bind (P := fun names l l' => names = [name] ∧ l = ⟨L.size⟩ ∧ l' = ⟨L'.size⟩) ?_ ?_
  · refine ⟨[name], .inr ⟨_, _, ?_, ?_, rfl, rfl, rfl⟩⟩
    · rw [runAt_fresh, LabelTable.fresh_eq]
    · rw [runAt_fresh, LabelTable.fresh_eq]
  · rintro names l l' ⟨rfl, rfl, rfl⟩
    exact h

theorem read {f f' : Site → Emit γ} (h : Parallel t site L L' (f site) (f' site) Q) :
    Parallel t site L L' (MonadReader.read >>= f) (MonadReader.read >>= f') Q := by
  obtain ⟨names, h⟩ := h
  rw [← runAt_bind_ok (runAt_read site _), ← runAt_bind_ok (runAt_read site _)] at h
  exact ⟨names, h⟩

theorem get {f f' : EmitState → Emit γ} (h : Parallel t site L L' (f ⟨L, t, .first⟩) (f' ⟨L', t, .first⟩) Q) :
    Parallel t site L L' (MonadState.get >>= f) (MonadState.get >>= f') Q := by
  obtain ⟨names, h⟩ := h
  rw [← runAt_bind_ok (runAt_get site _), ← runAt_bind_ok (runAt_get site _)] at h
  exact ⟨names, h⟩

theorem copyLowered {source source' target target' : Lowered} {f f' : List Item → Emit γ}
    (h : Parallel t site L L' (f (copied source target)) (f' (copied source' target')) Q) :
    Parallel t site L L' (Emit.copyLowered source target >>= f) (Emit.copyLowered source' target' >>= f') Q := by
  have hcopy : ∀ (s d : Lowered) (K : LabelTable),
      (Emit.copyLowered s d).runAt site ⟨K, t, .first⟩ = (.ok (copied s d), ⟨K, t, .first⟩) := fun _ _ _ => rfl
  obtain ⟨names, h⟩ := h
  rw [← runAt_bind_ok (hcopy source target L), ← runAt_bind_ok (hcopy source' target' L')] at h
  exact ⟨names, h⟩

/-! ## Lowering -/

/-- What comes out of a step that hands out one label and writes a word under it. -/
def Writes (σ : Label → Label) (L : LabelTable) (mode : Mode) (labels : List Label) (names : List String)
    (x x' : Lowered) : Prop :=
  names.length = 1 ∧ x.mode = mode ∧ x.isFixed = false ∧ Renamed σ (labels ++ [⟨L.size⟩]) x x'

section

variable {σ : Label → Label} (hσ : Renumbers σ L L') {labels labels' : List Label} {x x' y y' : Lowered}
include hσ

/-- A word that a copy writes. -/
theorem written {name : String} {mode : Mode} (h : Renamed σ labels x x') :
    Parallel t site L L'
      (Emit.fresh name >>= fun tag => Emit.copyLowered x (.wordAt tag) >>= fun setup =>
        Pure.pure (.written mode tag setup))
      (Emit.fresh name >>= fun tag => Emit.copyLowered x' (.wordAt tag) >>= fun setup =>
        Pure.pure (.written mode tag setup)) (Writes σ L mode labels) := by
  have htag : σ ⟨L.size⟩ = ⟨L'.size⟩ := hσ 0
  refine fresh (copyLowered (pure ⟨rfl, rfl, rfl, ?_⟩))
  have hcode := h.copied (.wordAt htag)
  rw [List.append_nil] at hcode
  exact .written mode htag hcode

theorem derefLowered (h : Renamed σ labels x x') :
    Parallel t site L L' (Emit.derefLowered x) (Emit.derefLowered x') (Writes σ L .immediate labels) := by
  unfold Emit.derefLowered
  rw [h.mode_eq]
  split
  · exact throw_bind _
  · exact written hσ h

theorem spillLowered (h : Renamed σ labels x x') :
    Parallel t site L L' (Emit.spillLowered x) (Emit.spillLowered x') (Writes σ L .position labels) := by
  unfold Emit.spillLowered
  rw [h.mode_eq]
  split
  · exact throw_bind _
  · exact written hσ h

/-- An offset that is not known in advance is added by code. -/
theorem offsetLowered (h : Renamed σ labels x x') (k : Renamed σ labels' y y')
    (hfold : (x.isFixed && y.isFixed && y.mode == .immediate) = false) :
    Parallel t site L L' (Emit.offsetLowered x y) (Emit.offsetLowered x' y')
      (Writes σ L x.mode (labels ++ labels')) := by
  have htag : σ ⟨L.size⟩ = ⟨L'.size⟩ := hσ 0
  unfold Emit.offsetLowered
  rw [h.isFixed_eq, k.isFixed_eq, k.mode_eq, h.mode_eq, if_neg (by simp [hfold]), if_neg (by simp [hfold])]
  refine fresh (pure ⟨rfl, rfl, rfl, ?_⟩)
  have hcode := Renamed.instruction .add (h.withMode .immediate) k (.wordAt htag)
  rw [List.append_nil] at hcode
  exact .written x.mode htag hcode

end

theorem relabelLowered {σ : Label → Label} {labels : List Label} {x x' : Lowered} (h : Renamed σ labels x x')
    (mode : Mode) :
    Parallel t site L L' (Emit.relabelLowered mode x) (Emit.relabelLowered mode x') fun names y y' =>
      names = [] ∧ y = { x with mode } ∧ Renamed σ labels y y' := by
  unfold Emit.relabelLowered
  rw [h.mode_eq]
  split
  · exact throw_bind _
  · exact pure ⟨rfl, rfl, h.withMode mode⟩

/-- The code that climbs from record to record. -/
theorem followParents {σ : Label → Label} (hσ : Renumbers σ L L') {tag tag' : Label} (htag : σ tag = tag') (n : Nat) :
    Parallel t site L L' (Emit.followParents tag n) (Emit.followParents tag' n) fun names xs xs' =>
      RenamedCode σ (Label.range L.size (L.size + names.length)) xs xs' := by
  induction n generalizing L L' with
  | zero =>
    refine pure ?_
    rw [List.length_nil, Nat.add_zero, Label.range_self]
    exact .nil σ
  | succ n ih =>
    refine bind (derefLowered hσ (.wordAt htag)) ?_
    rintro names x x' ⟨hnames, -, -, hx⟩
    refine bind (relabelLowered hx .position) ?_
    rintro _ y y' ⟨rfl, -, hy⟩
    rw [LabelTable.extend_nil, LabelTable.extend_nil]
    refine copyLowered (bind (ih (hσ.extend names)) fun more xs xs' hxs => pure ?_)
    have hcode := hy.copied (.wordAt htag)
    rw [LabelTable.size_extend, hnames] at hxs
    simp only [List.length_append, List.length_nil, Nat.add_zero, hnames, ← Nat.add_assoc]
    rw [Label.range_cons (by omega)]
    exact hcode.append hxs

/-- What lowering an operand leaves. -/
structure Lowers (σ : Label → Label) (o : Operand) (L : LabelTable) (names : List String) (x x' : Lowered) : Prop where
  renamed : Renamed σ (o.labels ++ Label.range L.size (L.size + names.length)) x x'
  of_fixed : x.isFixed = true → x.setup = [] ∧ names = []

theorem Lowers.of_fixed' {σ : Label → Label} {o : Operand} {names : List String} {x x' : Lowered}
    (h : Lowers σ o L names x x') (hfixed : x'.isFixed = true) : x'.setup = [] ∧ names = [] := by
  obtain ⟨hsetup, hnames⟩ := h.of_fixed (h.renamed.isFixed_eq ▸ hfixed)
  refine ⟨?_, hnames⟩
  rw [h.renamed.eq_rename, Lowered.rename, hsetup, List.map_nil]

/-- A word that is written under the last label that was handed out. -/
theorem Writes.lowers {σ : Label → Label} {o : Operand} {mode : Mode} {labels : List Label} {names more : List String}
    {x x' : Lowered} (h : Writes σ (L.extend names) mode labels more x x')
    (hlabels : labels.Perm (o.labels ++ Label.range L.size (L.size + names.length))) :
    Lowers σ o L (names ++ more) x x' := by
  obtain ⟨hmore, -, hfixed, hx⟩ := h
  refine ⟨?_, fun h => ?_⟩
  · rw [List.length_append, hmore, ← Nat.add_assoc, Label.range_concat (by omega), ← List.append_assoc]
    rw [LabelTable.size_extend] at hx
    exact hx.perm (hlabels.append_right _)
  · rw [hfixed] at h
    cases h

/-- A word that is known in advance and stands under no label belongs to an operand without labels. -/
theorem Lowers.labels_eq_nil {σ : Label → Label} {o : Operand} {x x' : Lowered} (h : Lowers σ o L [] x x')
    (hsetup : x.setup = []) (hcell : x.cell.isLabeled = false) : o.labels = [] := by
  have hlabels : x.cell.labels = [] := by simpa [Cell.isLabeled] using hcell
  have hperm := h.renamed.labels_perm
  rw [Lowered.labels, hlabels, hsetup] at hperm
  exact (List.append_eq_nil_iff.1 (List.nil_perm.1 hperm)).1

/-- Where both parts of an offset are known, no label was handed out for them, and their sum needs none. -/
theorem offsetLowered_fixed {σ : Label → Label} {base amount : Operand} {names names' : List String}
    {x x' y y' : Lowered} (hx : Lowers σ base L names x x') (hy : Lowers σ amount (L.extend names) names' y y')
    (hfold : (x.isFixed && y.isFixed && y.mode == .immediate) = true) :
    Parallel t site (L.extend (names ++ names')) (L'.extend (names ++ names')) (Emit.offsetLowered x y)
      (Emit.offsetLowered x' y') fun more z z' => Lowers σ (.offset base amount) L (names ++ names' ++ more) z z' := by
  have hparts := hfold
  simp only [Bool.and_eq_true, beq_iff_eq] at hparts
  obtain ⟨hsetup, rfl⟩ := hx.of_fixed hparts.1.1
  obtain ⟨hsetup', rfl⟩ := hy.of_fixed hparts.1.2
  unfold Emit.offsetLowered
  rw [hx.renamed.isFixed_eq, hy.renamed.isFixed_eq, hy.renamed.mode_eq, hx.renamed.mode_eq, hx.renamed.cell_eq,
    hy.renamed.cell_eq, if_pos hfold, if_pos hfold, Cell.isLabeled_rename, Cell.isLabeled_rename]
  split
  · exact throw_bind _
  · next hlabeled =>
    simp only [Bool.or_eq_true, not_or, Bool.not_eq_true] at hlabeled
    refine pure ⟨?_, fun _ => ⟨rfl, rfl⟩⟩
    have hlabels : (Operand.offset base amount).labels = [] := by
      rw [Operand.labels, hx.labels_eq_nil hsetup hlabeled.1, hy.labels_eq_nil hsetup' hlabeled.2, List.append_nil]
    rw [hlabels, List.append_nil, List.append_nil, List.length_nil, Nat.add_zero, Label.range_self, List.append_nil]
    refine .fixed x.mode (.plain (.sum [x.cell.word, y.cell.word])) ?_
    simp [Cell.rename, Cell.plain, Word.rename, Word.renameAll]

theorem varLowered {σ : Label → Label} (hσ : Renumbers σ L L') (name : String) (scopeSlot : Int)
    (hlocation : ∀ location offset, t.resolve site.scope name = some (.fixed location offset) → σ location = location) :
    Parallel t site L L' (Emit.varLowered name scopeSlot) (Emit.varLowered name scopeSlot)
      (Lowers σ (.var name scopeSlot) L) := by
  refine read (get ?_)
  dsimp only
  rcases hr : t.resolve site.scope name with _ | ⟨location, offset⟩ | ⟨levelsUp, offset⟩
  · exact throw _
  · let cell : Cell := .plain (.sum [.addr location, .num (Heap.recordHeader + offset : Nat)])
    have hcell : cell.rename σ = cell := by
      simp [cell, Cell.rename, Cell.plain, Word.rename, Word.renameAll, hlocation location offset hr]
    have hlowers : Lowers σ (.var name scopeSlot) L [] (.fixed .position cell) (.fixed .position cell) := by
      refine ⟨?_, fun _ => ⟨rfl, rfl⟩⟩
      rw [List.length_nil, Nat.add_zero, Label.range_self]
      exact .fixed .position cell hcell.symm
    exact pure hlowers
  · have htag : σ ⟨L.size⟩ = ⟨L'.size⟩ := hσ 0
    refine fresh (copyLowered ?_)
    refine bind (followParents (hσ.extend ["var"]) htag levelsUp) fun names climb climb' hclimb => ?_
    refine bind (offsetLowered ((hσ.extend ["var"]).extend names) (.number _ _) (.wordAt htag) rfl) ?_
    rintro more slot slot' ⟨hmore, -, -, hslot⟩
    refine copyLowered (pure ⟨?_, fun h => (Bool.false_ne_true h).elim⟩)
    have hstart := (Renamed.number .relative scopeSlot).copied (.wordAt htag)
    have hstore := hslot.copied (.wordAt htag)
    have hcode := (hstart.append hclimb).append hstore
    refine (Renamed.written .position htag hcode).perm ?_
    simp only [LabelTable.size_extend, List.length_singleton, List.nil_append, List.append_nil]
    have hlast : L.size + ("var" :: (names ++ more)).length = L.size + 1 + names.length + 1 := by
      simp only [List.length_cons, List.length_append, hmore]
      omega
    rw [hlast, Operand.labels, List.nil_append, ← Label.range_concat (by omega),
      Label.range_cons (by omega : L.size < _)]
    exact List.perm_append_singleton _ _

theorem lower {σ : Label → Label} (hσ : Renumbers σ L L') {o : Operand} (hlabels : ∀ l ∈ o.labels ++ o.refs, σ l = l)
    (hlocation : ∀ name location offset,
      t.resolve site.scope name = some (.fixed location offset) → σ location = location) :
    Parallel t site L L' (Emit.lower o) (Emit.lower o) (Lowers σ o L) := by
  induction o generalizing L L' with
  | const mode cell =>
    have hcell : cell.rename σ = cell := Cell.rename_eq_self (fun l hl => hlabels l (List.mem_append_right _ hl))
      fun l hl => hlabels l (List.mem_append_left _ hl)
    refine pure ⟨?_, fun _ => ⟨rfl, rfl⟩⟩
    rw [List.length_nil, Nat.add_zero, Label.range_self, List.append_nil]
    exact .fixed mode cell hcell.symm
  | offset base amount ihbase ihamount =>
    have hbase : ∀ l ∈ base.labels ++ base.refs, σ l = l := fun l hl => hlabels l (by
      simp only [Operand.labels, Operand.refs, List.mem_append] at hl ⊢
      tauto)
    have hamount : ∀ l ∈ amount.labels ++ amount.refs, σ l = l := fun l hl => hlabels l (by
      simp only [Operand.labels, Operand.refs, List.mem_append] at hl ⊢
      tauto)
    refine bind (ihbase hσ hbase) fun names x x' hx => ?_
    refine bind (ihamount (hσ.extend names) hamount) fun names' y y' hy => ?_
    rw [LabelTable.extend_extend, LabelTable.extend_extend]
    simp only [← List.append_assoc]
    rcases hfold : x.isFixed && y.isFixed && y.mode == .immediate with _ | _
    · refine (offsetLowered (hσ.extend _) hx.renamed hy.renamed hfold).mono fun more z z' hz => hz.lowers ?_
      rw [LabelTable.size_extend, List.length_append, ← Nat.add_assoc, ← Label.range_append (Nat.le_add_right _ _)
        (Nat.le_add_right _ _), Operand.labels, List.append_assoc, List.append_assoc]
      exact (List.perm_append_comm_assoc ..).append_left _
    · exact offsetLowered_fixed hx hy hfold
  | deref o ih =>
    refine bind (ih hσ hlabels) fun names x x' hx => ?_
    exact (derefLowered (hσ.extend names) hx.renamed).mono fun more y y' hy => hy.lowers (.refl _)
  | relabel mode o ih =>
    refine bind (ih hσ hlabels) fun names x x' hx => ?_
    refine (relabelLowered hx.renamed mode).mono ?_
    rintro _ y y' ⟨rfl, rfl, hy⟩
    rw [List.append_nil]
    exact ⟨hy, hx.of_fixed⟩
  | spill o ih =>
    refine bind (ih hσ hlabels) fun names x x' hx => ?_
    exact (spillLowered (hσ.extend names) hx.renamed).mono fun more y y' hy => hy.lowers (.refl _)
  | var name scopeSlot => exact varLowered hσ name scopeSlot (hlocation name)

end Parallel

/-! ## One operand, two tables -/

/-- What a lowered operand has to do with the labels that were handed out for it: a word that is known in advance needs
neither code nor labels, and each of the labels stands for one word, either that of the operand or one of its code. -/
structure Settles (L : LabelTable) (names : List String) (l : Lowered) : Prop where
  of_fixed : l.isFixed = true → l.setup = [] ∧ names = []
  cells : ∀ i ∈ l.setup, i.isCell = true
  count_eq : ∀ i < names.length, l.labels.count ⟨L.size + i⟩ = 1

theorem count_eq_one {labels carried : List Label} {n k : Nat} (hperm : carried.Perm (labels ++ Label.range n (n + k)))
    (hlabels : ∀ l ∈ labels, l.index < n) {i : Nat} (hi : i < k) : carried.count ⟨n + i⟩ = 1 := by
  have hold : (⟨n + i⟩ : Label) ∉ labels := fun hmem => by
    have := hlabels _ hmem
    simp only at this
    omega
  have hnew : (⟨n + i⟩ : Label) ∈ Label.range n (n + k) := Label.mem_range.2 ⟨Nat.le_add_right n i, by simpa using hi⟩
  rw [hperm.count_eq, List.count_append, List.count_eq_zero_of_not_mem hold, Nat.zero_add]
  exact List.count_eq_one_of_mem (Label.nodup_range _ _) hnew

/-- Lowered with two label tables that hold its labels and those of the records at fixed addresses, an operand fails
with the same error; or it comes out twice, and each label that was handed out behind the first table is replaced by the
one with the same place behind the second, all else being equal. Either way the labels that were handed out have the
same names, and where the lowering succeeds they are settled. -/
theorem lower_reproducible {t : ScopeTable} {L L' : LabelTable} {o : Operand}
    (ho : ∀ l ∈ o.labels ++ o.refs, l.index < L.size ∧ l.index < L'.size)
    (ht : ∀ s l, (t.get s).location = some l → l.index < L.size ∧ l.index < L'.size) (site : Site) :
    ∃ names : List String,
      (∃ e, (lower o).runAt site ⟨L, t, .first⟩ = (.error e, ⟨L.extend names, t, .first⟩) ∧
        (lower o).runAt site ⟨L', t, .first⟩ = (.error e, ⟨L'.extend names, t, .first⟩)) ∨
      ∃ l l', (lower o).runAt site ⟨L, t, .first⟩ = (.ok l, ⟨L.extend names, t, .first⟩) ∧
        (lower o).runAt site ⟨L', t, .first⟩ = (.ok l', ⟨L'.extend names, t, .first⟩) ∧
        l' = l.rename (Label.shift L.size L'.size) ∧ Settles L names l ∧ Settles L' names l' := by
  have hσ := Renumbers.shift L L'
  have hold : ∀ l : Label, l.index < L.size → Label.shift L.size L'.size l = l := fun l hl => if_pos hl
  have hruns : Parallel t site L L' (lower o) (lower o) (Parallel.Lowers (Label.shift L.size L'.size) o L) :=
    Parallel.lower hσ (fun l hl => hold l (ho l hl).1) fun name location offset hr => by
      obtain ⟨s, hs⟩ := ScopeTable.exists_location hr
      exact hold _ (ht s _ hs).1
  obtain ⟨names, herror | ⟨l, l', hl, hl', hlowers⟩⟩ := hruns
  · exact ⟨names, .inl herror⟩
  · have hlabels : ∀ r ∈ o.labels, r.index < L.size ∧ r.index < L'.size := fun r hr =>
      ho r (List.mem_append_left _ hr)
    have hperm := hlowers.renamed.labels_perm_map
    rw [List.map_append, hσ.map_range, List.map_congr_left fun r hr => hold r (hlabels r hr).1, List.map_id'] at hperm
    refine ⟨names, .inr ⟨l, l', hl, hl', hlowers.renamed.eq_rename, ?_, ?_⟩⟩
    · exact ⟨hlowers.of_fixed, hlowers.renamed.cells, fun i hi =>
        count_eq_one hlowers.renamed.labels_perm (fun r hr => (hlabels r hr).1) hi⟩
    · exact ⟨hlowers.of_fixed', hlowers.renamed.cells', fun i hi =>
        count_eq_one hperm (fun r hr => (hlabels r hr).2) hi⟩

/-- Two records around a site; the outer one binds a name. -/
def twoLevels : ScopeTable :=
  ((ScopeTable.initial.level ScopeTable.globals "x").child 2).2

/-- What a variable points at, as an address, plus a word that a label stands for. -/
def climbingOperand : Operand :=
  .offset (Operand.deref (.named "x")).toPointer (.patched .immediate .ramPointer)

/-- A variable that is reached through a parent record needs five labels, which are numbered from 5 or from 7 on. -/
theorem lower_climbing :
    ∃ l l' : Lowered, ∃ names, names = ["var", "deref", "offset", "deref", "offset"] ∧
      (lower climbingOperand).runAt ⟨3, .generated⟩ ⟨.reserved, twoLevels, .first⟩ =
        (.ok l, ⟨LabelTable.reserved.extend names, twoLevels, .first⟩) ∧
      (lower climbingOperand).runAt ⟨3, .generated⟩ ⟨LabelTable.reserved.extend ["a", "b"], twoLevels, .first⟩ =
        (.ok l', ⟨(LabelTable.reserved.extend ["a", "b"]).extend names, twoLevels, .first⟩) ∧
      l' = l.rename (Label.shift 5 7) ∧ Settles .reserved names l := by
  have ht : twoLevels.Grounded := (ScopeTable.Grounded.initial.level _ _).child 2
  have hrecords : ∀ s l, (twoLevels.get s).location = some l →
      l.index < LabelTable.reserved.size ∧ l.index < (LabelTable.reserved.extend ["a", "b"]).size := by
    intro s l hl
    have hlt := ht hl
    exact ⟨hlt, Nat.lt_of_lt_of_le hlt (by decide)⟩
  have hmentioned : ∀ l ∈ climbingOperand.labels ++ climbingOperand.refs,
      l.index < LabelTable.reserved.size ∧ l.index < (LabelTable.reserved.extend ["a", "b"]).size := by decide
  obtain ⟨names, ⟨e, herror, -⟩ | ⟨l, l', hl, hl', hrename, hsettles, -⟩⟩ :=
    lower_reproducible hmentioned hrecords ⟨3, .generated⟩
  · have hok : ((lower climbingOperand).runAt ⟨3, .generated⟩ ⟨.reserved, twoLevels, .first⟩).1.isOk = true := by decide
    rw [herror] at hok
    cases hok
  · have hnames : ((lower climbingOperand).runAt ⟨3, .generated⟩ ⟨.reserved, twoLevels, .first⟩).2.labels =
        LabelTable.reserved.extend ["var", "deref", "offset", "deref", "offset"] := by decide
    rw [hl] at hnames
    exact ⟨l, l', names, LabelTable.extend_inj _ hnames, hl, hl', hrename, hsettles⟩

end Emit

end Lamcode
