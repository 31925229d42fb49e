import Lamcode.Proofs.Code.Layout
import Lamcode.Proofs.Result

/-!
# Lamcode.Proofs.Link.Placed — what linking makes of items

Linking goes over the items three times. Here its result is said by position, for the items as they were written:
`Holds` says that every label, hanging or on its cell, has the address of its word, and that every word of the image
is the value of the word that was written there.
-/

namespace Lamcode

namespace Assembly

/-! ## Addresses -/

theorem placeLabels_ok {address : Nat} {ls : List Label} {t t' : Addresses}
    (h : placeLabels address ls t = .ok t') :
    (∀ l ∈ ls, t'[l.index]? = some address) ∧ (∀ {i b : Nat}, t[i]? = some b → t'[i]? = some b) ∧
      ∀ {i b : Nat}, t'[i]? = some b → t[i]? = some b ∨ b = address := by
  induction ls generalizing t with
  | nil =>
    cases h
    exact ⟨fun _ hl => (List.not_mem_nil hl).elim, id, .inl⟩
  | cons l ls ih =>
    rw [placeLabels] at h
    split at h
    · cases h
    · next hnew =>
      obtain ⟨hplaced, hkept, honly⟩ := ih h
      have hfresh : t[l.index]? = none := by
        rw [Std.TreeMap.contains_eq_isSome_getElem?] at hnew
        exact Option.not_isSome_iff_eq_none.1 hnew
      refine ⟨fun l' hl' => ?_, fun {i b} hi => hkept ?_, fun {i b} hi => ?_⟩
      · rcases List.mem_cons.1 hl' with rfl | hl'
        · exact hkept (by simp)
        · exact hplaced l' hl'
      · have hne : l.index ≠ i := by
          rintro rfl
          rw [hfresh] at hi
          cases hi
        simpa [Std.TreeMap.getElem?_insert, hne] using hi
      · rcases honly hi with hi | rfl
        · rw [Std.TreeMap.getElem?_insert] at hi
          split at hi
          · exact .inr (Option.some.inj hi).symm
          · exact .inl hi
        · exact .inr rfl

theorem place_ok {address : Nat} {cells : List Cell} {t t' : Addresses} (h : place address cells t = .ok t') :
    (∀ {i : Nat} {c : Cell}, cells[i]? = some c → ∀ l ∈ c.labels, t'[l.index]? = some (address + i)) ∧
      (∀ {i b : Nat}, t[i]? = some b → t'[i]? = some b) ∧
      ∀ {i b : Nat}, t'[i]? = some b → t[i]? = some b ∨ b < address + cells.length := by
  induction cells generalizing address t with
  | nil =>
    cases h
    exact ⟨fun hi => by simp at hi, id, .inl⟩
  | cons c cells ih =>
    rw [place] at h
    rcases hlabels : placeLabels address c.labels t with l | t₁
    · rw [hlabels] at h
      cases h
    · rw [hlabels] at h
      obtain ⟨hplaced, hkept, honly⟩ := placeLabels_ok hlabels
      obtain ⟨hplaced', hkept', honly'⟩ := ih h
      refine ⟨fun {i c'} hi l hl => ?_, fun hi => hkept' (hkept hi), fun {i b} hi => ?_⟩
      · cases i with
        | zero =>
          obtain rfl : c = c' := by simpa using hi
          exact hkept' (hplaced l hl)
        | succ i =>
          have := hplaced' (i := i) (by simpa using hi) l hl
          rwa [Nat.add_assoc, Nat.add_comm 1] at this
      · rw [List.length_cons]
        rcases honly' hi with hi | hlt
        · rcases honly hi with hi | rfl
          · exact .inl hi
          · exact .inr (by omega)
        · exact .inr (by omega)

/-! ## Words -/

theorem evaluateCells_ok {t : Addresses} {cells : List Cell} {words : List Int}
    (h : evaluateCells t cells = .ok words) :
    words.length = cells.length ∧
      ∀ {i : Nat} {c : Cell}, cells[i]? = some c → ∃ v, evaluate t c.word = .ok v ∧ words[i]? = some v := by
  induction cells generalizing words with
  | nil =>
    cases h
    exact ⟨rfl, fun hi => by simp at hi⟩
  | cons c cells ih =>
    rw [evaluateCells] at h
    rcases hc : evaluate t c.word with l | v
    · rw [hc] at h
      cases h
    · rw [hc] at h
      rcases hcells : evaluateCells t cells with l | ws
      · rw [hcells] at h
        cases h
      · rw [hcells] at h
        cases h
        obtain ⟨hlength, hwords⟩ := ih hcells
        refine ⟨by simp [hlength], fun {i c'} hi => ?_⟩
        cases i with
        | zero =>
          obtain rfl : c = c' := by simpa using hi
          exact ⟨v, hc, rfl⟩
        | succ i => simpa using hwords (by simpa using hi)

/-! ## Items -/

/-- A cell stands at an address of the linked program. -/
structure HoldsCell (asm : Assembly) (a : Nat) (c : Cell) : Prop where
  address : ∀ l ∈ c.labels, asm.addresses[l.index]? = some a
  word : ∃ v, evaluate asm.addresses c.word = .ok v ∧ asm.words[a]? = some v

/-- Items stand at an address of the linked program and behind it. -/
def Holds (asm : Assembly) : Nat → List Item → Prop
  | _, [] => True
  | a, .hanging l :: rest => asm.addresses[l.index]? = some a ∧ Holds asm a rest
  | a, .cell c :: rest => asm.HoldsCell a c ∧ Holds asm (a + 1) rest

theorem holds_append {asm : Assembly} {a : Nat} {xs ys : List Item} :
    asm.Holds a (xs ++ ys) ↔ asm.Holds a xs ∧ asm.Holds (a + Item.size xs) ys := by
  induction xs generalizing a with
  | nil => simp [Holds]
  | cons x xs ih =>
    cases x with
    | hanging l => simp only [List.cons_append, Holds, ih, Item.size_hanging, and_assoc]
    | cell c =>
      simp only [List.cons_append, Holds, ih, Item.size_cell, and_assoc, Nat.add_assoc, Nat.add_comm 1]

/-- Where the cells with all labels on them stand, there stand the items they were made of. -/
theorem holds_of_collapse {asm : Assembly} {pending : List Label} {items : List Item} {cells : List Cell}
    (h : collapse pending items = .ok cells) {a : Nat}
    (hcells : ∀ {i : Nat} {c : Cell}, cells[i]? = some c → asm.HoldsCell (a + i) c) :
    cells.length = Item.size items ∧ (∀ l ∈ pending, asm.addresses[l.index]? = some a) ∧
      asm.Holds a items := by
  induction items generalizing pending cells a with
  | nil =>
    cases pending with
    | nil =>
      cases h
      exact ⟨rfl, fun _ hl => (List.not_mem_nil hl).elim, trivial⟩
    | cons l ls => cases h
  | cons x items ih =>
    cases x with
    | hanging l =>
      obtain ⟨hlength, hpending, hitems⟩ := ih (show collapse (pending ++ [l]) items = .ok cells from h) hcells
      exact ⟨hlength, fun l' hl' => hpending l' (List.mem_append_left _ hl'),
        hpending l (by simp), hitems⟩
    | cell c =>
      rw [collapse] at h
      rcases hrest : collapse [] items with l | rest
      · rw [hrest] at h
        cases h
      · rw [hrest] at h
        cases h
        obtain ⟨hlength, -, hitems⟩ := ih (a := a + 1) hrest fun {i c'} hi => by
          have := hcells (i := i + 1) (by simpa using hi)
          rwa [show a + (i + 1) = a + 1 + i by omega] at this
        obtain ⟨haddress, hword⟩ := hcells (i := 0) rfl
        refine ⟨by simp [hlength], fun l hl => haddress l (List.mem_append_right _ hl), ⟨?_, hword⟩, hitems⟩
        exact fun l hl => haddress l (List.mem_append_left _ hl)

/-- Linking succeeds where its three steps do. -/
theorem link_eq_ok {labels : LabelTable} {items : List Item} {asm : Assembly} :
    link labels items = .ok asm ↔ ∃ cells, collapse [] items = .ok cells ∧
      place 0 cells ∅ = .ok asm.addresses ∧ evaluateCells asm.addresses cells = .ok asm.words := by
  simp only [link, bind_mapError_eq_ok]
  constructor
  · rintro ⟨cells, hcells, addresses, hplace, words, hwords, ⟨⟩⟩
    exact ⟨cells, hcells, hplace, hwords⟩
  · rintro ⟨cells, hcells, hplace, hwords⟩
    exact ⟨cells, hcells, _, hplace, _, hwords, rfl⟩

/-- The items stand in the linked program, which has no other words, and every label has the address of one of
its words. -/
theorem link_holds {labels : LabelTable} {items : List Item} {asm : Assembly}
    (h : link labels items = .ok asm) :
    asm.Holds 0 items ∧ asm.words.length = Item.size items ∧
      ∀ {l : Label} {a : Nat}, asm.addresses[l.index]? = some a → a < asm.words.length := by
  obtain ⟨cells, hcells, hplace, hwords⟩ := link_eq_ok.1 h
  obtain ⟨hplaced, -, honly⟩ := place_ok hplace
  obtain ⟨hlength, hvalues⟩ := evaluateCells_ok hwords
  have hstand : ∀ {i : Nat} {c : Cell}, cells[i]? = some c → asm.HoldsCell (0 + i) c := fun {i c} hi =>
    ⟨hplaced hi, (Nat.zero_add i).symm ▸ hvalues hi⟩
  obtain ⟨hsize, -, hholds⟩ := holds_of_collapse hcells hstand
  refine ⟨hholds, hlength.trans hsize, fun {l a} hl => ?_⟩
  rcases honly hl with hl | hlt
  · simp at hl
  · simpa [hlength] using hlt

end Assembly

end Lamcode
