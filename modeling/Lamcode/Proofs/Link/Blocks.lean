import Mathlib.Data.List.Induction
import Mathlib.Data.List.Nodup
import Lamcode.Proofs.Link.Complete
import Lamcode.Proofs.Link.Sections

/-!
# Lamcode.Proofs.Link.Blocks — exactly what linking does

Items are read as blocks, each a cell behind the labels that hang in front of it, followed by the labels that hang
behind the last cell. In these words linking has a meaning that does not speak of its three passes: a label stands for
the block that carries it (`StandsFor`), the linked program holds one word for every block (`Linked`), and what can be
wrong with items comes in a fixed order (`Fault`). The main statement, `link_exact`, says that linking succeeds on the
items with no fault, that its result is the linked program, and that its error is the fault of the items.
-/

namespace Lamcode

/-- A cell with the labels that hang in front of it. -/
structure Block where
  hanging : List Label
  cell : Cell

namespace Block

/-- The items that make up a block. -/
def items (b : Block) : List Item :=
  b.hanging.map .hanging ++ [.cell b.cell]

/-- The labels that stand for the cell: its own ones, then the hanging ones. -/
def labels (b : Block) : List Label :=
  b.cell.labels ++ b.hanging

/-- The cell with all its labels on it. -/
def collapsed (b : Block) : Cell :=
  { b.cell with labels := b.labels }

end Block

namespace Item

theorem labels_map_hanging (hs : List Label) : labels (hs.map .hanging) = hs := by
  induction hs with
  | nil => rfl
  | cons l hs ih => exact congrArg (l :: ·) ih

theorem refs_map_hanging (hs : List Label) : refs (hs.map .hanging) = [] := by
  induction hs with
  | nil => rfl
  | cons l hs ih => exact ih

theorem cells_map_hanging (hs : List Label) : cells (hs.map .hanging) = [] := by
  induction hs with
  | nil => rfl
  | cons l hs ih => exact ih

/-- All items are blocks and the labels that hang behind them. -/
theorem exists_blocks (items : List Item) :
    ∃ (bs : List Block) (hs : List Label), items = bs.flatMap Block.items ++ hs.map .hanging := by
  induction items with
  | nil => exact ⟨[], [], rfl⟩
  | cons x items ih =>
    obtain ⟨bs, hs, rfl⟩ := ih
    cases x with
    | cell c => exact ⟨⟨[], c⟩ :: bs, hs, rfl⟩
    | hanging l =>
      cases bs with
      | nil => exact ⟨[], l :: hs, rfl⟩
      | cons b bs => exact ⟨⟨l :: b.hanging, b.cell⟩ :: bs, hs, rfl⟩

/-- `l` is the first label that hangs behind the last cell. -/
def Dangles (items : List Item) (l : Label) : Prop :=
  ∃ (bs : List Block) (hs : List Label), items = bs.flatMap Block.items ++ (l :: hs).map .hanging

/-- `l` stands for the cell with the number `i`: the cell carries it, or it hangs in front of the cell. -/
def StandsFor (items : List Item) (l : Label) (i : Nat) : Prop :=
  ∃ (bs : List Block) (hs : List Label) (b : Block),
    items = bs.flatMap Block.items ++ hs.map .hanging ∧ bs[i]? = some b ∧ l ∈ b.labels

/-- `l` is the first label that is met a second time in the order of addresses. -/
def Repeats (items : List Item) (l : Label) : Prop :=
  ∃ (bs : List Block) (before after : List Label), items = bs.flatMap Block.items ∧
    bs.flatMap Block.labels = before ++ l :: after ∧ before.Nodup ∧ l ∈ before

/-- `l` is the first label that the words of the items mention and the items do not carry. -/
def Misses (items : List Item) (l : Label) : Prop :=
  ∃ before after : List Label, refs items = before ++ l :: after ∧
    (∀ l' ∈ before, l' ∈ labels items) ∧ l ∉ labels items

end Item

mutual

/-- The value of a word whose labels have the addresses `address`. -/
def Word.value (address : Label → Nat) : Word → Int
  | .num n => n
  | .addr l => address l
  | .sum parts => valueSum address parts

/-- The sum of the values of words. -/
def Word.valueSum (address : Label → Nat) : List Word → Int
  | [] => 0
  | w :: rest => w.value address + valueSum address rest

end

namespace Assembly

/-! ## Cells with their labels -/

theorem collapse_hanging (pending hs : List Label) (items : List Item) :
    collapse pending (hs.map .hanging ++ items) = collapse (pending ++ hs) items := by
  induction hs generalizing pending with
  | nil => rw [List.append_nil]; rfl
  | cons l hs ih =>
    show collapse (pending ++ [l]) (hs.map .hanging ++ items) = _
    rw [ih, List.append_assoc]
    rfl

theorem collapse_blocks (bs : List Block) (items : List Item) :
    collapse [] (bs.flatMap Block.items ++ items) = (collapse [] items).map (bs.map Block.collapsed ++ ·) := by
  induction bs with
  | nil => cases h : collapse [] items <;> simp [h, Except.map]
  | cons b bs ih =>
    rw [List.flatMap_cons, Block.items, List.append_assoc, List.append_assoc, collapse_hanging]
    show (collapse [] (bs.flatMap Block.items ++ items)).map _ = _
    rw [ih]
    cases collapse [] items <;> rfl

theorem collapse_closed (bs : List Block) :
    collapse [] (bs.flatMap Block.items) = .ok (bs.map Block.collapsed) := by
  have h := collapse_blocks bs []
  rw [List.append_nil] at h
  rw [h]
  exact congrArg Except.ok (List.append_nil _)

theorem collapse_dangling (bs : List Block) (l : Label) (hs : List Label) :
    collapse [] (bs.flatMap Block.items ++ (l :: hs).map .hanging) = .error l := by
  have h : collapse [] ((l :: hs).map .hanging) = .error l := by
    have := collapse_hanging [] (l :: hs) []
    rw [List.append_nil] at this
    rw [this]
    rfl
  rw [collapse_blocks, h]
  rfl

/-! ## Addresses -/

theorem placeLabels_append (address : Nat) (xs ys : List Label) (t : Addresses) :
    placeLabels address (xs ++ ys) t = (placeLabels address xs t).bind (placeLabels address ys) := by
  induction xs generalizing t with
  | nil => rfl
  | cons l xs ih =>
    rw [List.cons_append, placeLabels, placeLabels]
    split
    · rfl
    · exact ih _

/-- Only the labels that are placed get addresses. -/
theorem placeLabels_other {address : Nat} {ls : List Label} {t t' : Addresses}
    (h : placeLabels address ls t = .ok t') {l : Label} (hl : l ∉ ls) : t'[l.index]? = t[l.index]? := by
  induction ls generalizing t with
  | nil =>
    cases h
    rfl
  | cons l' ls ih =>
    rw [placeLabels] at h
    split at h
    · cases h
    · have hne : l'.index ≠ l.index := fun heq => hl (by simp [show l = l' from congrArg Label.mk heq.symm])
      rw [ih h fun hmem => hl (List.mem_cons_of_mem _ hmem)]
      simp [Std.TreeMap.getElem?_insert, hne]

theorem place_other {address : Nat} {cells : List Cell} {t t' : Addresses} (h : place address cells t = .ok t')
    {l : Label} (hl : l ∉ cells.flatMap Cell.labels) : t'[l.index]? = t[l.index]? := by
  induction cells generalizing address t with
  | nil =>
    cases h
    rfl
  | cons c cells ih =>
    rw [List.flatMap_cons, List.mem_append, not_or] at hl
    rw [place] at h
    cases hlabels : placeLabels address c.labels t with
    | error l' =>
      rw [hlabels] at h
      cases h
    | ok t₁ =>
      rw [hlabels] at h
      rw [ih h hl.2, placeLabels_other hlabels hl.1]

theorem placeLabels_met {address : Nat} {ls : List Label} {t t' : Addresses}
    (h : placeLabels address ls t = .ok t') {l : Label} (hl : l ∈ ls ∨ (t[l.index]?).isSome = true) :
    (t'[l.index]?).isSome = true := by
  obtain ⟨hplaced, hkept, -⟩ := placeLabels_ok h
  rcases hl with hl | hl
  · rw [hplaced l hl]
    rfl
  · obtain ⟨a, ha⟩ := Option.isSome_iff_exists.1 hl
    rw [hkept ha]
    rfl

/-- The first label that is met a second time cannot be placed: it is met among the labels in front of it, or it has its
address already. -/
theorem placeLabels_repeat {address : Nat} {before after : List Label} {l : Label} {t : Addresses}
    (hnodup : before.Nodup) (hnew : ∀ l' ∈ before, t[l'.index]? = none)
    (hl : l ∈ before ∨ (t[l.index]?).isSome = true) :
    placeLabels address (before ++ l :: after) t = .error l := by
  obtain ⟨t₁, ht₁, -⟩ := exists_placeLabels address hnodup hnew
  have hmet : t₁.contains l.index = true := by
    rw [Std.TreeMap.contains_eq_isSome_getElem?]
    exact placeLabels_met ht₁ hl
  rw [placeLabels_append, ht₁]
  show placeLabels address (l :: after) t₁ = .error l
  rw [placeLabels, if_pos hmet]

theorem place_repeat {address : Nat} {cells : List Cell} {before after : List Label} {l : Label} {t : Addresses}
    (hcells : cells.flatMap Cell.labels = before ++ l :: after) (hnodup : before.Nodup)
    (hnew : ∀ l' ∈ before, t[l'.index]? = none) (hl : l ∈ before ∨ (t[l.index]?).isSome = true) :
    place address cells t = .error l := by
  induction cells generalizing address before t with
  | nil => simp at hcells
  | cons c cells ih =>
    rw [List.flatMap_cons] at hcells
    rw [place]
    rcases List.append_eq_append_iff.1 hcells with ⟨before', rfl, hrest⟩ | ⟨own, hown, hrest⟩
    · -- All labels of the cell are new: the second meeting comes with a later cell.
      obtain ⟨hc, hbefore', hdisjoint⟩ := List.nodup_append.1 hnodup
      obtain ⟨t₁, ht₁, hkept⟩ := exists_placeLabels address hc fun l' hl' => hnew l' (by simp [hl'])
      rw [ht₁]
      apply ih hrest hbefore'
      · intro l' hl'
        rw [hkept l' fun h => hdisjoint l' h l' hl' rfl]
        exact hnew l' (by simp [hl'])
      · rw [List.mem_append] at hl
        rcases hl with (hl | hl) | hl
        · exact .inr (placeLabels_met ht₁ (.inl hl))
        · exact .inl hl
        · exact .inr (placeLabels_met ht₁ (.inr hl))
    · cases own with
      | nil =>
        -- The same, with the second meeting right behind this cell's labels.
        obtain ⟨t₁, ht₁, -⟩ := exists_placeLabels address hnodup hnew
        rw [hown, List.append_nil, ht₁]
        have hnext : cells.flatMap Cell.labels = [] ++ l :: after := hrest.symm
        exact ih hnext .nil (by simp) (.inr (placeLabels_met ht₁ hl))
      | cons l' own =>
        obtain ⟨rfl, -⟩ := List.cons.inj hrest
        rw [hown, placeLabels_repeat hnodup hnew hl]

/-! ## Words -/

/-- The address of a label, or 0 if it has none. -/
def addressIn (t : Addresses) (l : Label) : Nat :=
  (t[l.index]?).getD 0

theorem addressIn_eq {t : Addresses} {l : Label} {a : Nat} (h : t[l.index]? = some a) : addressIn t l = a := by
  rw [addressIn, h]
  rfl

/-- The first of the labels that has no address. -/
def missing? (t : Addresses) (ls : List Label) : Option Label :=
  ls.find? fun l => (t[l.index]?).isNone

theorem missing?_append (t : Addresses) (xs ys : List Label) :
    missing? t (xs ++ ys) = (missing? t xs).or (missing? t ys) :=
  List.find?_append

mutual

/-- A word has its value unless one of its labels is missing, and then the first one is reported. -/
theorem evaluate_eq {t : Addresses} {address : Label → Nat}
    (haddress : ∀ {l : Label} {a : Nat}, t[l.index]? = some a → address l = a) :
    ∀ w : Word, evaluate t w = (missing? t w.refs).elim (.ok (w.value address)) .error
  | .num n => rfl
  | .addr l => by
    cases hl : t[l.index]? with
    | none => simp [evaluate, hl, missing?, Word.refs]
    | some a => simp [evaluate, hl, missing?, Word.refs, Word.value, haddress hl]
  | .sum parts => by
    rw [evaluate, Word.refs, Word.value]
    exact evaluateSum_eq haddress parts

theorem evaluateSum_eq {t : Addresses} {address : Label → Nat}
    (haddress : ∀ {l : Label} {a : Nat}, t[l.index]? = some a → address l = a) :
    ∀ ws : List Word,
      evaluateSum t ws = (missing? t (Word.refsAll ws)).elim (.ok (Word.valueSum address ws)) .error
  | [] => rfl
  | w :: ws => by
    rw [evaluateSum, Word.refsAll, Word.valueSum, missing?_append, evaluate_eq haddress w,
      evaluateSum_eq haddress ws]
    cases missing? t w.refs with
    | some l => rfl
    | none => cases missing? t (Word.refsAll ws) <;> rfl

end

theorem evaluateCells_eq {t : Addresses} {address : Label → Nat}
    (haddress : ∀ {l : Label} {a : Nat}, t[l.index]? = some a → address l = a) (cells : List Cell) :
    evaluateCells t cells = (missing? t (cells.flatMap (·.word.refs))).elim
      (.ok (cells.map (·.word.value address))) .error := by
  induction cells with
  | nil => rfl
  | cons c cells ih =>
    rw [evaluateCells, List.flatMap_cons, missing?_append, evaluate_eq haddress, ih]
    cases missing? t c.word.refs with
    | some l => rfl
    | none => cases missing? t (cells.flatMap (·.word.refs)) <;> rfl

/-! ## Symbols -/

theorem mem_symbols {asm : Assembly} {l : Label} {i : Nat} :
    (l, i) ∈ asm.symbols ↔ asm.address? l = some i := by
  rw [symbols, List.mem_mergeSort, List.mem_map, address?, ← Std.TreeMap.mem_toList_iff_getElem?_eq_some]
  constructor
  · rintro ⟨⟨_, _⟩, hmem, ⟨⟩⟩
    exact hmem
  · intro hmem
    exact ⟨_, hmem, rfl⟩

theorem nodup_symbols (asm : Assembly) : (asm.symbols.map Prod.fst).Nodup := by
  have hperm : (asm.symbols.map Prod.fst).Perm ((asm.addresses.toList.map Prod.fst).map Label.mk) := by
    rw [List.map_map]
    refine ((List.mergeSort_perm _ _).map _).trans ?_
    rw [List.map_map]
    rfl
  rw [hperm.nodup_iff, Std.TreeMap.map_fst_toList_eq_keys, List.Nodup, List.pairwise_map]
  exact Std.TreeMap.nodup_keys.imp fun hne h => hne (congrArg Label.index h)

/-- Symbols come by address, and those of one address by label. -/
theorem sorted_symbols (asm : Assembly) :
    asm.symbols.Pairwise fun a b => a.2 < b.2 ∨ a.2 = b.2 ∧ a.1.index < b.1.index := by
  have hle : asm.symbols.Pairwise fun a b => symbolLe a b = true := by
    apply List.pairwise_mergeSort
    · intro a b c hab hbc
      simp only [symbolLe, Bool.or_eq_true, Bool.and_eq_true, decide_eq_true_eq, beq_iff_eq] at hab hbc ⊢
      omega
    · intro a b
      simp only [symbolLe, Bool.or_eq_true, Bool.and_eq_true, decide_eq_true_eq, beq_iff_eq]
      omega
  have hne : asm.symbols.Pairwise fun a b => a.1 ≠ b.1 := List.pairwise_map.1 (nodup_symbols asm)
  refine hle.imp₂ (fun a b hab hne => ?_) hne
  have hindex : a.1.index ≠ b.1.index := fun h => hne (congrArg Label.mk h)
  simp only [symbolLe, Bool.or_eq_true, Bool.and_eq_true, decide_eq_true_eq, beq_iff_eq] at hab
  omega

/-! ## Items -/

theorem refs_blocks (bs : List Block) :
    Item.refs (bs.flatMap Block.items) = (bs.map Block.collapsed).flatMap (·.word.refs) := by
  induction bs with
  | nil => rfl
  | cons b bs ih =>
    rw [List.flatMap_cons, Item.refs_append, ih, Block.items, Item.refs_append, Item.refs_map_hanging]
    simp [Item.refs, Item.mentioned, Block.collapsed]

theorem cells_blocks (bs : List Block) : Item.cells (bs.flatMap Block.items) = bs.map Block.cell := by
  induction bs with
  | nil => rfl
  | cons b bs ih =>
    have hcells (xs ys : List Item) : Item.cells (xs ++ ys) = Item.cells xs ++ Item.cells ys :=
      List.filterMap_append
    rw [List.flatMap_cons, hcells, ih, Block.items, hcells, Item.cells_map_hanging]
    rfl

theorem labels_blocks (bs : List Block) :
    (Item.labels (bs.flatMap Block.items)).Perm ((bs.map Block.collapsed).flatMap Cell.labels) := by
  induction bs with
  | nil => exact .nil
  | cons b bs ih =>
    rw [List.flatMap_cons, Item.labels_append, List.map_cons, List.flatMap_cons]
    refine List.Perm.append ?_ ih
    rw [Block.items, Item.labels_append, Item.labels_map_hanging]
    simpa [Item.labels, Item.carried, Block.collapsed, Block.labels] using List.perm_append_comm

/-- Every label finds a cell where no label dangles. -/
theorem collapse_eq_ok {items : List Item} {cells : List Cell} :
    collapse [] items = .ok cells ↔
      ∃ bs : List Block, items = bs.flatMap Block.items ∧ cells = bs.map Block.collapsed := by
  constructor
  · intro h
    obtain ⟨bs, hs, rfl⟩ := Item.exists_blocks items
    cases hs with
    | nil =>
      rw [List.map_nil, List.append_nil] at h ⊢
      rw [collapse_closed] at h
      exact ⟨bs, rfl, (Except.ok.inj h).symm⟩
    | cons l hs =>
      rw [collapse_dangling] at h
      cases h
  · rintro ⟨bs, rfl, rfl⟩
    exact collapse_closed bs

theorem standsFor_iff {items : List Item} {cells : List Cell} (h : collapse [] items = .ok cells) {l : Label}
    {i : Nat} : Item.StandsFor items l i ↔ ∃ c, cells[i]? = some c ∧ l ∈ c.labels := by
  constructor
  · rintro ⟨bs, hs, b, rfl, hb, hl⟩
    cases hs with
    | nil =>
      rw [List.map_nil, List.append_nil, collapse_closed] at h
      cases h
      exact ⟨b.collapsed, by simp [hb], hl⟩
    | cons l' hs =>
      rw [collapse_dangling] at h
      cases h
  · rintro ⟨c, hc, hl⟩
    obtain ⟨bs, rfl, rfl⟩ := collapse_eq_ok.1 h
    rw [List.getElem?_map] at hc
    obtain ⟨b, hb, rfl⟩ := Option.map_eq_some_iff.1 hc
    exact ⟨bs, [], b, by simp, hb, hl⟩

/-- Cells that carry no label twice are given their addresses, and nothing else is. -/
theorem exists_addresses {cells : List Cell} (hnodup : (cells.flatMap Cell.labels).Nodup) :
    ∃ t, place 0 cells ∅ = .ok t ∧
      ∀ {l : Label} {i : Nat}, t[l.index]? = some i ↔ ∃ c, cells[i]? = some c ∧ l ∈ c.labels := by
  obtain ⟨t, ht⟩ := exists_place 0 (t := ∅) hnodup fun _ _ => by simp
  have hplaced : ∀ {l : Label} {i : Nat}, (∃ c, cells[i]? = some c ∧ l ∈ c.labels) → t[l.index]? = some i := by
    rintro l i ⟨c, hc, hl⟩
    have := (place_ok ht).1 hc l hl
    rwa [Nat.zero_add] at this
  refine ⟨t, ht, fun {l i} => ⟨fun hi => ?_, hplaced⟩⟩
  by_cases hl : l ∈ cells.flatMap Cell.labels
  · obtain ⟨c, hc, hlc⟩ := List.mem_flatMap.1 hl
    obtain ⟨j, hj⟩ := List.mem_iff_getElem?.1 hc
    have := hplaced ⟨c, hj, hlc⟩
    rw [hi] at this
    cases this
    exact ⟨c, hj, hlc⟩
  · rw [place_other ht hl] at hi
    simp at hi

theorem isNone_address_iff {cells : List Cell} {t : Addresses}
    (ht : ∀ {l : Label} {i : Nat}, t[l.index]? = some i ↔ ∃ c, cells[i]? = some c ∧ l ∈ c.labels) {l : Label} :
    (t[l.index]?).isNone = true ↔ l ∉ cells.flatMap Cell.labels := by
  rw [Option.isNone_iff_eq_none, Option.eq_none_iff_forall_ne_some, List.mem_flatMap]
  constructor
  · rintro h ⟨c, hc, hl⟩
    obtain ⟨i, hi⟩ := List.mem_iff_getElem?.1 hc
    exact h i (ht.2 ⟨c, hi, hl⟩)
  · intro h i hi
    obtain ⟨c, hc, hl⟩ := ht.1 hi
    exact h ⟨c, List.mem_of_getElem? hc, hl⟩

/-! ## Programs and faults -/

/-- The items carry every label once and for a cell, and they carry every label that they mention. -/
structure Sound (items : List Item) : Prop where
  closed : ∀ l, ¬ Item.Dangles items l
  nodup : (Item.labels items).Nodup
  carried : ∀ l ∈ Item.refs items, l ∈ Item.labels items

/-- The program is the image of the items. -/
structure Realizes (asm : Assembly) (items : List Item) : Prop where
  address_iff : ∀ {l : Label} {i : Nat}, asm.address? l = some i ↔ Item.StandsFor items l i
  address_lt : ∀ {l : Label} {i : Nat}, asm.address? l = some i → i < asm.words.length
  /-- There is one word for every cell, its value under the addresses of the labels. -/
  words : ∃ address : Label → Nat, (∀ {l : Label} {i : Nat}, Item.StandsFor items l i → address l = i) ∧
    asm.words = (Item.cells items).map (·.word.value address)
  mem_symbols : ∀ {l : Label} {i : Nat}, (l, i) ∈ asm.symbols ↔ Item.StandsFor items l i
  nodup_symbols : (asm.symbols.map Prod.fst).Nodup
  sorted_symbols : asm.symbols.Pairwise fun a b => a.2 < b.2 ∨ a.2 = b.2 ∧ a.1.index < b.1.index

/-- The first thing that is wrong with items: labels that dangle come before labels that stand for two words, and these
before labels that are missing. -/
inductive Fault (items : List Item) : LinkCause → Label → Prop
  | dangling {l : Label} (h : Item.Dangles items l) : Fault items .dangling l
  | duplicate {l : Label} (closed : ∀ l', ¬ Item.Dangles items l') (h : Item.Repeats items l) :
    Fault items .duplicate l
  | unresolved {l : Label} (closed : ∀ l', ¬ Item.Dangles items l') (nodup : (Item.labels items).Nodup)
    (h : Item.Misses items l) : Fault items .unresolved l

theorem exists_closed {items : List Item} (h : ∀ l, ¬ Item.Dangles items l) :
    ∃ bs : List Block, items = bs.flatMap Block.items := by
  obtain ⟨bs, hs, rfl⟩ := Item.exists_blocks items
  cases hs with
  | nil => exact ⟨bs, List.append_nil _⟩
  | cons l hs => exact absurd ⟨bs, hs, rfl⟩ (h l)

/-- A list that is not free of duplicates has a first element that is met a second time. -/
theorem exists_repeat {ls : List Label} (h : ¬ ls.Nodup) :
    ∃ before l after, ls = before ++ l :: after ∧ before.Nodup ∧ l ∈ before := by
  induction ls using List.reverseRecOn with
  | nil => exact absurd .nil h
  | append_singleton ls l ih =>
    by_cases hls : ls.Nodup
    · refine ⟨ls, l, [], rfl, hls, ?_⟩
      by_contra hl
      exact h (List.concat_eq_append ▸ hls.concat hl)
    · obtain ⟨before, l', after, rfl, hbefore, hl'⟩ := ih hls
      exact ⟨before, l', after ++ [l], by simp, hbefore, hl'⟩

theorem exists_fault_of_not_sound {items : List Item} (h : ¬ Sound items) : ∃ cause l, Fault items cause l := by
  by_cases hclosed : ∃ l, Item.Dangles items l
  · obtain ⟨l, hl⟩ := hclosed
    exact ⟨_, l, .dangling hl⟩
  rw [not_exists] at hclosed
  by_cases hnodup : (Item.labels items).Nodup
  · have hmissing : ∃ l ∈ Item.refs items, l ∉ Item.labels items := by
      by_contra hcarried
      push Not at hcarried
      exact h ⟨hclosed, hnodup, hcarried⟩
    obtain ⟨l, hl⟩ := Option.isSome_iff_exists.1
      (List.find?_isSome (p := fun l => decide (l ∉ Item.labels items)).2 (by simpa using hmissing))
    obtain ⟨hnot, before, after, hrefs, hbefore⟩ := List.find?_eq_some_iff_append.1 hl
    exact ⟨_, l, .unresolved hclosed hnodup ⟨before, after, hrefs, by simpa using hbefore, by simpa using hnot⟩⟩
  · obtain ⟨bs, rfl⟩ := exists_closed hclosed
    rw [(labels_blocks bs).nodup_iff] at hnodup
    obtain ⟨before, l, after, hlabels, hbefore, hl⟩ := exists_repeat hnodup
    rw [List.flatMap_map] at hlabels
    exact ⟨_, l, .duplicate hclosed ⟨bs, before, after, rfl, hlabels, hbefore, hl⟩⟩

/-- Linking reports the fault of the items. -/
theorem link_of_fault {items : List Item} {cause : LinkCause} {l : Label} (h : Fault items cause l)
    (labels : LabelTable) : link labels items = .error ⟨cause, labels.describe l⟩ := by
  cases h with
  | dangling h =>
    obtain ⟨bs, hs, rfl⟩ := h
    rw [link, collapse_dangling]
    rfl
  | duplicate closed h =>
    obtain ⟨bs, before, after, rfl, hlabels, hnodup, hl⟩ := h
    have hplace : place 0 (bs.map Block.collapsed) ∅ = .error l :=
      place_repeat (by rwa [List.flatMap_map]) hnodup (by simp) (.inl hl)
    rw [link, collapse_closed]
    show ((place 0 (bs.map Block.collapsed) ∅).mapError _ >>= _) = _
    rw [hplace]
    rfl
  | unresolved closed nodup h =>
    obtain ⟨before, after, hrefs, hbefore, hl⟩ := h
    obtain ⟨bs, rfl⟩ := exists_closed closed
    have hperm := labels_blocks bs
    obtain ⟨t, hplace, ht⟩ := exists_addresses (hperm.nodup_iff.1 nodup)
    have hmissing : missing? t ((bs.map Block.collapsed).flatMap (·.word.refs)) = some l := by
      rw [← refs_blocks, hrefs, missing?, List.find?_eq_some_iff_append]
      refine ⟨(isNone_address_iff ht).2 fun h => hl (hperm.symm.subset h), before, after, rfl, ?_⟩
      intro l' hl'
      rw [Bool.not_eq_true', ← Bool.not_eq_true, isNone_address_iff ht]
      exact not_not_intro (hperm.subset (hbefore l' hl'))
    rw [link, collapse_closed]
    show ((place 0 (bs.map Block.collapsed) ∅).mapError _ >>= _) = _
    rw [hplace]
    show ((evaluateCells t (bs.map Block.collapsed)).mapError _ >>= _) = _
    rw [evaluateCells_eq addressIn_eq, hmissing]
    rfl

/-- Items without a fault are linked. -/
theorem exists_realizes {items : List Item} (h : Sound items) (labels : LabelTable) :
    ∃ asm, link labels items = .ok asm ∧ asm.Realizes items := by
  obtain ⟨bs, rfl⟩ := exists_closed h.closed
  have hperm := labels_blocks bs
  have hcells := collapse_closed bs
  obtain ⟨t, hplace, ht⟩ := exists_addresses (hperm.nodup_iff.1 h.nodup)
  have hmissing : missing? t ((bs.map Block.collapsed).flatMap (·.word.refs)) = none := by
    rw [← refs_blocks, missing?, List.find?_eq_none]
    intro l hl
    rw [isNone_address_iff ht]
    exact not_not_intro (hperm.subset (h.carried l hl))
  have hwords := evaluateCells_eq (t := t) addressIn_eq (bs.map Block.collapsed)
  rw [hmissing] at hwords
  have haddress : ∀ {l : Label} {i : Nat}, t[l.index]? = some i ↔ Item.StandsFor (bs.flatMap Block.items) l i :=
    ht.trans (standsFor_iff hcells).symm
  refine ⟨⟨_, t⟩, link_eq_ok.2 ⟨_, hcells, hplace, hwords⟩, haddress, fun {l i} hi => ?_,
    ⟨addressIn t, fun hi => addressIn_eq (haddress.2 hi), ?_⟩, mem_symbols.trans haddress,
    nodup_symbols _, sorted_symbols _⟩
  · obtain ⟨c, hc, -⟩ := ht.1 hi
    rw [List.length_map]
    exact (List.getElem?_eq_some_iff.1 hc).1
  · rw [cells_blocks, List.map_map, List.map_map]
    rfl

theorem sound_iff_exists_link (labels : LabelTable) (items : List Item) :
    (∃ asm, link labels items = .ok asm) ↔ Sound items := by
  constructor
  · rintro ⟨asm, hasm⟩
    by_contra h
    obtain ⟨cause, l, hfault⟩ := exists_fault_of_not_sound h
    rw [link_of_fault hfault] at hasm
    cases hasm
  · intro h
    obtain ⟨asm, hasm, -⟩ := exists_realizes h labels
    exact ⟨asm, hasm⟩

/-- Linking succeeds on the items that are sound; what it gives is their image, and what it reports is their fault. -/
theorem link_exact (labels : LabelTable) (items : List Item) :
    ((∃ asm, link labels items = .ok asm) ↔ Sound items) ∧
      (∀ asm, link labels items = .ok asm → asm.Realizes items) ∧
      ∀ e, link labels items = .error e ↔ ∃ cause l, Fault items cause l ∧ e = ⟨cause, labels.describe l⟩ := by
  have hsound := sound_iff_exists_link labels items
  refine ⟨hsound, fun asm hasm => ?_, fun e => ⟨fun he => ?_, ?_⟩⟩
  · obtain ⟨asm', hasm', hrealizes⟩ := exists_realizes (hsound.1 ⟨asm, hasm⟩) labels
    rw [hasm] at hasm'
    cases hasm'
    exact hrealizes
  · have hnot : ¬ Sound items := by
      intro h
      obtain ⟨asm, hasm⟩ := hsound.2 h
      rw [he] at hasm
      cases hasm
    obtain ⟨cause, l, hfault⟩ := exists_fault_of_not_sound hnot
    rw [link_of_fault hfault] at he
    cases he
    exact ⟨cause, l, hfault, rfl⟩
  · rintro ⟨cause, l, hfault, rfl⟩
    exact link_of_fault hfault labels

/-- A word that mentions a later label inside a nested sum; three labels stand for it, two of them hanging. -/
def aliased : List Item :=
  [.hanging ⟨7⟩, .hanging ⟨2⟩, .cell ⟨.sum [.addr ⟨5⟩, .sum [.num 2, .addr ⟨7⟩]], [⟨4⟩]⟩, .hanging ⟨5⟩,
    .word (.num 9)]

theorem link_aliased : ∃ asm, link ⟨#[]⟩ aliased = .ok asm ∧ asm.words = [3, 9] ∧ asm.Realizes aliased := by
  have h : (link ⟨#[]⟩ aliased).toOption.any (fun asm => decide (asm.words = [3, 9])) = true := by decide +kernel
  obtain ⟨asm, hasm, hwords⟩ := exists_ok_of_any h
  exact ⟨asm, hasm, of_decide_eq_true hwords, (link_exact ⟨#[]⟩ aliased).2.1 asm hasm⟩

end Assembly

end Lamcode
