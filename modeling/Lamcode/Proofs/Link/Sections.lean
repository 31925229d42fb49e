import Lamcode.Proofs.Link.Placed

/-!
# Lamcode.Proofs.Link.Sections — the layout of a linked program

A program is written in sections: code, words that never change, and words that running it changes. The use of its
section and the labels on a cell decide what becomes of the word, and so the sections of a linked program make a layout
(`Assembly.layout`). In that layout every section stands where it was linked (`sectionsAt_of_holds`).
-/

namespace Lamcode

/-- What the words of a section are there for. -/
inductive Use where
  /-- They are run. The code writes those of its words that carry labels; the others never change. -/
  | code
  /-- They never change. -/
  | fixed
  /-- Running the program changes them. -/
  | data

/-- The cells of items. -/
def Item.cells (items : List Item) : List Cell :=
  items.filterMap fun
    | .cell c => some c
    | .hanging _ => none

theorem Item.length_cells (items : List Item) : (cells items).length = size items := by
  induction items with
  | nil => rfl
  | cons x items ih =>
    cases x with
    | hanging l => exact ih.trans (size_hanging l items).symm
    | cell c =>
      rw [size_cell, ← ih]
      rfl

/-- The cells of a program in sections, each with the use of its section. -/
def Use.cells (sections : List (Use × List Item)) : List (Use × Cell) :=
  sections.flatMap fun (use, items) => (Item.cells items).map (use, ·)

theorem Use.length_cells (sections : List (Use × List Item)) :
    (cells sections).length = Item.size (sections.flatMap Prod.snd) := by
  induction sections with
  | nil => rfl
  | cons x sections ih =>
    rw [List.flatMap_cons, Item.size_append, ← ih, ← Item.length_cells]
    simp [cells]

namespace Assembly

variable (asm : Assembly)

/-- The word at an address, if it never changes. -/
def frozenWord (cells : List (Use × Cell)) : Int → Option Int
  | .negSucc _ => none
  | .ofNat a =>
    match cells[a]? with
    | some (.code, c) => if c.labels = [] then asm.words[a]? else none
    | some (.fixed, _) => asm.words[a]?
    | _ => none

theorem lt_of_frozenWord {cells : List (Use × Cell)} {x v : Int} (h : asm.frozenWord cells x = some v) :
    x < cells.length := by
  cases x with
  | negSucc n => omega
  | ofNat a =>
    have hsome : cells[a]?.isSome := by
      cases hcell : cells[a]? with
      | none => simp [frozenWord, hcell] at h
      | some c => rfl
    have hlt : a < cells.length := by simpa using hsome
    exact Int.ofNat_lt.2 hlt

/-- How a linked program uses memory. -/
def layout (sections : List (Use × List Item))
    (hsize : Item.size (sections.flatMap Prod.snd) ≤ Memory.addressLimit) : Layout where
  addresses := asm.addresses
  frozen := asm.frozenWord (Use.cells sections)
  scratch x := ∃ (a : Nat) (c : Cell), x = a ∧ (Use.cells sections)[a]? = some (.code, c) ∧ c.labels ≠ []
  not_scratch_of_frozen := by
    rintro _ v hv ⟨a, c, rfl, hc, hlabels⟩
    change asm.frozenWord _ (.ofNat a) = some v at hv
    simp [frozenWord, hc, hlabels] at hv
  lt_of_frozen := by
    intro x v hv
    have hlt := asm.lt_of_frozenWord hv
    rw [Use.length_cells] at hlt
    omega
  lt_of_scratch := by
    rintro _ ⟨a, c, rfl, hc, -⟩
    have hlt := (List.getElem?_eq_some_iff.1 hc).1
    rw [Use.length_cells] at hlt
    omega

end Assembly

namespace Layout

variable (L : Layout) (words : List Int)

/-- A cell of a section stands at an address of the image. -/
structure CellUsed (use : Use) (a : Nat) (c : Cell) : Prop where
  address : ∀ l ∈ c.labels, L.addresses[l.index]? = some a
  word : ∃ v, Assembly.evaluate L.addresses c.word = .ok v ∧ words[a]? = some v
  content :
    match use with
    | .code => if c.labels = [] then L.frozen a = words[a]? else L.scratch a
    | .fixed => L.frozen a = words[a]?
    | .data => L.frozen a = none ∧ ¬ L.scratch a

/-- The items of a section stand at an address and behind it. -/
def UsedAt (use : Use) : Nat → List Item → Prop
  | _, [] => True
  | a, .hanging l :: rest => L.addresses[l.index]? = some a ∧ UsedAt use a rest
  | a, .cell c :: rest => L.CellUsed words use a c ∧ UsedAt use (a + 1) rest

/-- Sections stand one behind the other. -/
def SectionsAt : Nat → List (Use × List Item) → Prop
  | _, [] => True
  | a, (use, items) :: rest => L.UsedAt words use a items ∧ SectionsAt (a + Item.size items) rest

variable {L words}

theorem CellUsed.frozen {a : Nat} {c : Cell} (h : L.CellUsed words .fixed a c) :
    ∃ v, Assembly.evaluate L.addresses c.word = .ok v ∧ L.frozen a = some v := by
  obtain ⟨v, hv, hword⟩ := h.word
  have hfrozen : L.frozen a = words[a]? := h.content
  exact ⟨v, hv, hfrozen.trans hword⟩

theorem CellUsed.cellAt {a : Nat} {c : Cell} (h : L.CellUsed words .code a c) : L.CellAt a c := by
  refine ⟨h.address, ?_⟩
  have hcontent : if c.labels = [] then L.frozen a = words[a]? else L.scratch a := h.content
  split at hcontent
  · next hlabels =>
    obtain ⟨v, hv, hword⟩ := h.word
    rw [if_pos hlabels]
    exact ⟨v, hv, hcontent.trans hword⟩
  · next hlabels =>
    rw [if_neg hlabels]
    exact hcontent

theorem UsedAt.codeAt {a : Nat} {items : List Item} (h : L.UsedAt words .code a items) : L.CodeAt a items := by
  induction items generalizing a with
  | nil => trivial
  | cons x items ih =>
    cases x with
    | hanging l => exact ⟨h.1, ih h.2⟩
    | cell c => exact ⟨h.1.cellAt, ih h.2⟩

/-- The cells of a list stand one behind the other. -/
theorem UsedAt.cellUsed {β : Type} {f : β → Cell} {use : Use} {a : Nat} {xs : List β}
    (h : L.UsedAt words use a (xs.map fun x => .cell (f x))) {i : Nat} {x : β} (hx : xs[i]? = some x) :
    L.CellUsed words use (a + i) (f x) := by
  induction xs generalizing a i with
  | nil => simp at hx
  | cons y ys ih =>
    cases i with
    | zero =>
      obtain rfl : y = x := by simpa using hx
      exact h.1
    | succ i =>
      rw [show a + (i + 1) = a + 1 + i by omega]
      exact ih h.2 (by simpa using hx)

theorem sectionsAt_append {a : Nat} {xs ys : List (Use × List Item)} :
    L.SectionsAt words a (xs ++ ys) ↔
      L.SectionsAt words a xs ∧ L.SectionsAt words (a + Item.size (xs.flatMap Prod.snd)) ys := by
  induction xs generalizing a with
  | nil => simp [SectionsAt]
  | cons x xs ih =>
    obtain ⟨use, items⟩ := x
    simp only [List.cons_append, SectionsAt, ih, List.flatMap_cons, Item.size_append, and_assoc,
      Nat.add_assoc]

end Layout

namespace Assembly

variable {asm : Assembly} {sections : List (Use × List Item)}
  {hsize : Item.size (sections.flatMap Prod.snd) ≤ Memory.addressLimit}

/-- What never changes is a word of the image. -/
theorem exists_of_frozen {x v : Int} (h : (asm.layout sections hsize).frozen x = some v) :
    ∃ a : Nat, x = a ∧ a < Item.size (sections.flatMap Prod.snd) ∧ asm.words[a]? = some v := by
  cases x with
  | negSucc n => cases h
  | ofNat a =>
    change asm.frozenWord (Use.cells sections) (.ofNat a) = some v at h
    simp only [frozenWord] at h
    rw [← Use.length_cells]
    refine ⟨a, rfl, ?_⟩
    split at h
    · next c hc =>
      split at h
      · exact ⟨(List.getElem?_eq_some_iff.1 hc).1, h⟩
      · cases h
    · next c hc => exact ⟨(List.getElem?_eq_some_iff.1 hc).1, h⟩
    · cases h

theorem exists_of_scratch {x : Int} (h : (asm.layout sections hsize).scratch x) :
    ∃ a : Nat, x = a ∧ a < Item.size (sections.flatMap Prod.snd) := by
  obtain ⟨a, c, rfl, hc, -⟩ := h
  rw [← Use.length_cells]
  exact ⟨a, rfl, (List.getElem?_eq_some_iff.1 hc).1⟩

theorem cellUsed_of_holdsCell {use : Use} {a : Nat} {c : Cell} (h : asm.HoldsCell a c)
    (hc : (Use.cells sections)[a]? = some (use, c)) :
    (asm.layout sections hsize).CellUsed asm.words use a c where
  address := h.address
  word := h.word
  content := by
    have hfrozen : (asm.layout sections hsize).frozen a = asm.frozenWord (Use.cells sections) (.ofNat a) := rfl
    rw [hfrozen]
    cases use with
    | code =>
      by_cases hlabels : c.labels = []
      · rw [if_pos hlabels]
        simp [frozenWord, hc, hlabels]
      · rw [if_neg hlabels]
        exact ⟨a, c, rfl, hc, hlabels⟩
    | fixed => simp [frozenWord, hc]
    | data =>
      refine ⟨by simp [frozenWord, hc], ?_⟩
      rintro ⟨a', c', ha, hc', -⟩
      obtain rfl : a = a' := by omega
      rw [hc] at hc'
      cases hc'

/-- A section stands where its cells are. -/
theorem usedAt_of_holds {use : Use} {a : Nat} {items : List Item} {rest : List (Use × Cell)}
    (h : asm.Holds a items)
    (hcells : (Use.cells sections).drop a = (Item.cells items).map (use, ·) ++ rest) :
    (asm.layout sections hsize).UsedAt asm.words use a items := by
  induction items generalizing a with
  | nil => trivial
  | cons x items ih =>
    cases x with
    | hanging l => exact ⟨h.1, ih h.2 hcells⟩
    | cell c =>
      have hhead : (Use.cells sections)[a]? = some (use, c) := by
        have := congrArg (·[0]?) hcells
        simpa [Item.cells] using this
      have htail := congrArg (List.drop 1) hcells
      rw [List.drop_drop] at htail
      exact ⟨cellUsed_of_holdsCell h.1 hhead, ih h.2 htail⟩

theorem sectionsAt_of_drop {a : Nat} {rest : List (Use × List Item)}
    (h : asm.Holds a (rest.flatMap Prod.snd)) (hcells : (Use.cells sections).drop a = Use.cells rest) :
    (asm.layout sections hsize).SectionsAt asm.words a rest := by
  induction rest generalizing a with
  | nil => trivial
  | cons x rest ih =>
    obtain ⟨use, items⟩ := x
    rw [List.flatMap_cons, holds_append] at h
    have hsplit : Use.cells ((use, items) :: rest) = (Item.cells items).map (use, ·) ++ Use.cells rest := rfl
    refine ⟨usedAt_of_holds h.1 (hcells.trans hsplit), ih h.2 ?_⟩
    rw [← List.drop_drop, hcells, hsplit, ← Item.length_cells]
    exact List.drop_left' (List.length_map _)

/-- In the layout of a linked program, all its sections stand one behind the other. -/
theorem sectionsAt_of_holds (h : asm.Holds 0 (sections.flatMap Prod.snd)) :
    (asm.layout sections hsize).SectionsAt asm.words 0 sections :=
  sectionsAt_of_drop h List.drop_zero

end Assembly

end Lamcode
