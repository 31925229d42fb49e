import Lamcode.Proofs.Emit.Template
import Lamcode.Proofs.Link.Placed

/-!
# Lamcode.Proofs.Link.Complete — items that can be linked

Each step of linking has one way to fail: a label hangs behind the last word, stands for two words, or is mentioned and
stands for none. Items in which none of this occurs (`Linkable`) are linked, and every label that they carry gets an
address (`exists_link`).
-/

namespace Lamcode

/-- The items end in a word, carry no label twice and mention no label that they do not carry. -/
structure Linkable (items : List Item) : Prop where
  ends : ∃ xs c, items = xs ++ [.cell c]
  nodup : (Item.labels items).Nodup
  carried : ∀ l ∈ Item.refs items, l ∈ Item.labels items

namespace Assembly

/-- In front of a last word every label finds a cell, and the cells keep what the items carry and mention. -/
theorem exists_collapse (pending : List Label) (xs : List Item) (c : Cell) :
    ∃ cells, collapse pending (xs ++ [.cell c]) = .ok cells ∧
      (cells.flatMap Cell.labels).Perm (pending ++ Item.labels (xs ++ [.cell c])) ∧
      cells.flatMap (·.word.refs) = Item.refs (xs ++ [.cell c]) := by
  induction xs generalizing pending with
  | nil =>
    refine ⟨[{ c with labels := c.labels ++ pending }], rfl, ?_, rfl⟩
    simpa [Item.labels, Item.carried] using List.perm_append_comm
  | cons x xs ih =>
    cases x with
    | hanging l =>
      obtain ⟨cells, hcells, hlabels, hrefs⟩ := ih (pending ++ [l])
      refine ⟨cells, hcells, ?_, hrefs⟩
      rwa [List.append_assoc] at hlabels
    | cell c' =>
      obtain ⟨cells, hcells, hlabels, hrefs⟩ := ih []
      refine ⟨{ c' with labels := c'.labels ++ pending } :: cells, ?_, ?_, ?_⟩
      · rw [List.cons_append, collapse, hcells]
        rfl
      · show (c'.labels ++ pending ++ cells.flatMap Cell.labels).Perm (pending ++ (c'.labels ++ Item.labels _))
        rw [← List.append_assoc]
        exact List.perm_append_comm.append hlabels
      · exact congrArg (c'.word.refs ++ ·) hrefs

/-- Labels that have no address yet can be given one. -/
theorem exists_placeLabels (address : Nat) {ls : List Label} {t : Addresses} (hnodup : ls.Nodup)
    (hnew : ∀ l ∈ ls, t[l.index]? = none) :
    ∃ t', placeLabels address ls t = .ok t' ∧ ∀ l : Label, l ∉ ls → t'[l.index]? = t[l.index]? := by
  induction ls generalizing t with
  | nil => exact ⟨t, rfl, fun _ _ => rfl⟩
  | cons l ls ih =>
    obtain ⟨hl, hls⟩ := List.nodup_cons.1 hnodup
    have hfree : t.contains l.index = false := by
      rw [Std.TreeMap.contains_eq_isSome_getElem?, hnew l (by simp)]
      rfl
    have hne : ∀ {l' : Label}, l' ≠ l → (t.insert l.index address)[l'.index]? = t[l'.index]? := by
      intro l' hne
      have : l.index ≠ l'.index := fun h => hne (congrArg Label.mk h.symm)
      simp [Std.TreeMap.getElem?_insert, this]
    obtain ⟨t', ht', hkept⟩ := ih (t := t.insert l.index address) hls fun l' hl' => by
      rw [hne fun h => hl (h ▸ hl'), hnew l' (by simp [hl'])]
    refine ⟨t', by rw [placeLabels, hfree]; exact ht', fun l' hl' => ?_⟩
    rw [hkept l' fun h => hl' (by simp [h]), hne fun h => hl' (by simp [h])]

theorem exists_place (address : Nat) {cells : List Cell} {t : Addresses} (hnodup : (cells.flatMap Cell.labels).Nodup)
    (hnew : ∀ l ∈ cells.flatMap Cell.labels, t[l.index]? = none) : ∃ t', place address cells t = .ok t' := by
  induction cells generalizing address t with
  | nil => exact ⟨t, rfl⟩
  | cons c cells ih =>
    rw [List.flatMap_cons] at hnodup hnew
    obtain ⟨hc, hcells, hdisjoint⟩ := List.nodup_append.1 hnodup
    obtain ⟨t₁, ht₁, hkept⟩ := exists_placeLabels address hc fun l hl => hnew l (by simp [hl])
    obtain ⟨t', ht'⟩ := ih (address + 1) hcells fun l hl => by
      rw [hkept l fun h => hdisjoint l h l hl rfl, hnew l (List.mem_append_right _ hl)]
    exact ⟨t', by rw [place, ht₁]; exact ht'⟩

mutual

theorem exists_evaluate {t : Addresses} : ∀ w : Word, (∀ l ∈ w.refs, ∃ a, t[l.index]? = some a) →
    ∃ v, evaluate t w = .ok v
  | .num n, _ => ⟨n, rfl⟩
  | .addr l, h => by
    obtain ⟨a, ha⟩ := h l (by simp [Word.refs])
    exact ⟨a, by simp [evaluate, ha]⟩
  | .sum parts, h => exists_evaluateSum parts h

theorem exists_evaluateSum {t : Addresses} : ∀ ws : List Word,
    (∀ l ∈ Word.refsAll ws, ∃ a, t[l.index]? = some a) → ∃ v, evaluateSum t ws = .ok v
  | [], _ => ⟨0, rfl⟩
  | w :: ws, h => by
    obtain ⟨v, hv⟩ := exists_evaluate w fun l hl => h l (by simp [Word.refsAll, hl])
    obtain ⟨v', hv'⟩ := exists_evaluateSum ws fun l hl => h l (by simp [Word.refsAll, hl])
    exact ⟨v + v', by simp [evaluateSum, hv, hv']⟩

end

theorem exists_evaluateCells {t : Addresses} (cells : List Cell)
    (h : ∀ l ∈ cells.flatMap (·.word.refs), ∃ a, t[l.index]? = some a) :
    ∃ words, evaluateCells t cells = .ok words := by
  induction cells with
  | nil => exact ⟨[], rfl⟩
  | cons c cells ih =>
    rw [List.flatMap_cons] at h
    obtain ⟨v, hv⟩ := exists_evaluate c.word fun l hl => h l (List.mem_append_left _ hl)
    obtain ⟨words, hwords⟩ := ih fun l hl => h l (List.mem_append_right _ hl)
    exact ⟨v :: words, by simp [evaluateCells, hv, hwords, Except.map]⟩

/-- A label that items carry has the address of a word of the linked program. -/
theorem Holds.exists_address {asm : Assembly} {a : Nat} {items : List Item} (h : asm.Holds a items) {l : Label}
    (hl : l ∈ Item.labels items) : ∃ b, asm.address? l = some b := by
  induction items generalizing a with
  | nil => exact nomatch hl
  | cons x items ih =>
    rw [Item.labels, List.flatMap_cons, List.mem_append] at hl
    cases x with
    | hanging l' =>
      rcases hl with hl | hl
      · obtain rfl := List.mem_singleton.1 hl
        exact ⟨a, h.1⟩
      · exact ih h.2 hl
    | cell c =>
      rcases hl with hl | hl
      · exact ⟨a, h.1.address l hl⟩
      · exact ih h.2 hl

theorem exists_link {items : List Item} (h : Linkable items) (labels : LabelTable) :
    ∃ asm, link labels items = .ok asm := by
  obtain ⟨xs, c, rfl⟩ := h.ends
  obtain ⟨cells, hcells, hperm, hrefs⟩ := exists_collapse [] xs c
  obtain ⟨t, ht⟩ := exists_place 0 (t := ∅) (hperm.nodup_iff.2 h.nodup) fun _ _ => by simp
  obtain ⟨hplaced, -, -⟩ := place_ok ht
  obtain ⟨words, hwords⟩ := exists_evaluateCells (t := t) cells fun l hl => by
    have hl := hperm.symm.subset (h.carried l (hrefs ▸ hl))
    obtain ⟨c', hc', hlabel⟩ := List.mem_flatMap.1 hl
    obtain ⟨i, hi⟩ := List.mem_iff_getElem?.1 hc'
    exact ⟨_, hplaced hi l hlabel⟩
  exact ⟨⟨words, t⟩, link_eq_ok.2 ⟨cells, hcells, ht, hwords⟩⟩

end Assembly

end Lamcode
