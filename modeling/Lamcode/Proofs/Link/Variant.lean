import Lamcode.Proofs.Emit.Template
import Lamcode.Proofs.Link.Placed

/-!
# Lamcode.Proofs.Link.Variant — two instances of one template, linked

The instances of a template differ inside their choices only, and a choice takes up the same words in all of them.
What is left to compare are addresses: a label stands for the same word in both images, unless the source of a copy
carries it, which is the first operand word in some encodings and the second one in others (`Moved`). A word of the
image differs if it belongs to a choice or is the address of such a label (`word_cases`).
-/

namespace Lamcode

namespace Operation

/-- The labels that stand at the same place in all encodings. -/
def settled : Operation → List Label
  | .copy _ target => target.cell.labels
  | .addTo _ _ _ _ => []
  | .jump target => target.cell.labels

/-- How many words an operation takes up, in every encoding. -/
def size (op : Operation) : Nat :=
  Item.size op.first

theorem mem_labels_first {op : Operation} {l : Label} (h : l ∈ Item.labels op.first) :
    l ∈ op.moved ∨ l ∈ op.settled := by
  cases op with
  | copy source target | jump target =>
    simpa [first, Item.labels, Item.carried, Item.word, Cell.plain, Lowered.instruction, Lowered.fixed,
      OperandWord.lowered, moved, settled] using h
  | addTo amountMode amount outMode out => cases h

end Operation

namespace Assembly

/-- Both images have an encoding of the operation at the address. -/
def Variant (asm asm' : Assembly) (a : Nat) (op : Operation) : Prop :=
  ∃ form form', op.Form form ∧ op.Form form' ∧ asm.Holds a form ∧ asm'.Holds a form'

/-- The source of a copy carries the label. In both images the copy is at the same address, and the label stands for its
first operand word or for its second one. -/
def Moved (asm asm' : Assembly) (l : Label) : Prop :=
  ∃ (a : Nat) (source target : OperandWord) (k k' : Nat), asm.Variant asm' a (.copy source target) ∧
    l ∈ source.cell.labels ∧ (k = 1 ∨ k = 2) ∧ (k' = 1 ∨ k' = 2) ∧
    asm.address? l = some (a + k) ∧ asm'.address? l = some (a + k')

variable {asm asm' : Assembly} {a : Nat}

/-! ## Labels -/

theorem address_of_source {source target : OperandWord} {form : List Item} {l : Label}
    (hform : (Operation.copy source target).Form form) (h : asm.Holds a form) (hl : l ∈ source.cell.labels) :
    ∃ k, (k = 1 ∨ k = 2) ∧ asm.address? l = some (a + k) := by
  cases hform with
  | copy hform =>
    simp only [Emit.copyForms, List.mem_cons, List.not_mem_nil, or_false] at hform
    rcases hform with rfl | rfl | rfl | rfl
    · exact ⟨1, .inl rfl, h.2.1.address l hl⟩
    · exact ⟨2, .inr rfl, h.2.2.1.address l hl⟩
    · exact ⟨1, .inl rfl, h.2.1.address l hl⟩
    · exact ⟨2, .inr rfl, h.2.2.1.address l hl⟩

theorem address_of_settled {op : Operation} {form : List Item} {l : Label} (hform : op.Form form)
    (h : asm.Holds a form) (hl : l ∈ op.settled) : asm.address? l = some (a + (op.size - 1)) := by
  cases hform with
  | copy hform =>
    simp only [Emit.copyForms, List.mem_cons, List.not_mem_nil, or_false] at hform
    rcases hform with rfl | rfl | rfl | rfl <;> exact h.2.2.2.1.address l hl
  | addOut | addAmount => cases hl
  | jumpOnZero | jumpOnNonzero => exact h.2.2.1.address l hl

/-- Where one operation is encoded in both images, a label that it carries has the same address or is moved. -/
theorem Variant.address_cases {op : Operation} {l : Label} (h : asm.Variant asm' a op)
    (hl : l ∈ Item.labels op.first) :
    (∃ b, asm.address? l = some b ∧ asm'.address? l = some b) ∨ l ∈ op.moved ∧ asm.Moved asm' l := by
  obtain ⟨form, form', hform, hform', hholds, hholds'⟩ := h
  rcases Operation.mem_labels_first hl with hl | hl
  · cases op with
    | copy source target =>
      obtain ⟨k, hk, haddress⟩ := address_of_source hform hholds hl
      obtain ⟨k', hk', haddress'⟩ := address_of_source hform' hholds' hl
      exact .inr ⟨hl, a, source, target, k, k', ⟨form, form', hform, hform', hholds, hholds'⟩, hl, hk, hk', haddress,
        haddress'⟩
    | addTo | jump => cases hl
  · exact .inl ⟨_, address_of_settled hform hholds hl, address_of_settled hform' hholds' hl⟩

/-- Two images of one template, from an address on. -/
structure Images (asm asm' : Assembly) (a : Nat) (T : Template) : Prop where
  left : ∃ items, Instance T items ∧ asm.Holds a items
  right : ∃ items, Instance T items ∧ asm'.Holds a items

namespace Images

variable {T : Template}

theorem item {i : Item} (h : Images asm asm' a (.item i :: T)) :
    asm.Holds a [i] ∧ asm'.Holds a [i] ∧ Images asm asm' (a + Item.size [i]) T := by
  obtain ⟨⟨xs, hinst, hxs⟩, ys, hinst', hys⟩ := h
  cases hinst with
  | item _ hinst =>
    cases hinst' with
    | item _ hinst' =>
      obtain ⟨hi, hxs⟩ := holds_append.1 (show asm.Holds a ([i] ++ _) from hxs)
      obtain ⟨hi', hys⟩ := holds_append.1 (show asm'.Holds a ([i] ++ _) from hys)
      exact ⟨hi, hi', ⟨_, hinst, hxs⟩, _, hinst', hys⟩

theorem choice {op : Operation} (h : Images asm asm' a (.choice op :: T)) :
    asm.Variant asm' a op ∧ Images asm asm' (a + op.size) T := by
  obtain ⟨⟨_, hinst, hxs⟩, _, hinst', hys⟩ := h
  cases hinst with
  | choice hform hinst =>
    cases hinst' with
    | choice hform' hinst' =>
      obtain ⟨hi, hxs⟩ := holds_append.1 hxs
      obtain ⟨hi', hys⟩ := holds_append.1 hys
      rw [hform.size_eq] at hxs
      rw [hform'.size_eq] at hys
      exact ⟨⟨_, _, hform, hform', hi, hi'⟩, ⟨_, hinst, hxs⟩, _, hinst', hys⟩

/-- A label has the same address in both images, or a choice moves it. -/
theorem address_cases (h : Images asm asm' a T) {l : Label} (hl : l ∈ Item.labels T.items) :
    (∃ b, asm.address? l = some b ∧ asm'.address? l = some b) ∨ l ∈ T.moved ∧ asm.Moved asm' l := by
  induction T generalizing a with
  | nil => cases hl
  | cons segment T ih =>
    rw [Template.items_cons, Item.labels_append, List.mem_append] at hl
    cases segment with
    | item i =>
      obtain ⟨hi, hi', hrest⟩ := h.item
      rcases hl with hl | hl
      · cases i with
        | hanging l' =>
          obtain rfl := List.mem_singleton.1 hl
          exact .inl ⟨a, hi.1, hi'.1⟩
        | cell c =>
          have hl : l ∈ c.labels := by
            simpa [Segment.items, Item.labels, Item.carried] using hl
          exact .inl ⟨a, hi.1.address l hl, hi'.1.address l hl⟩
      · exact ih hrest hl
    | choice op =>
      obtain ⟨hvariant, hrest⟩ := h.choice
      rcases hl with hl | hl
      · exact (hvariant.address_cases hl).imp_right (And.imp_left (List.mem_append_left _))
      · exact (ih hrest hl).imp_right (And.imp_left (List.mem_append_right _))

end Images

/-! ## Words -/

mutual

/-- The value of a word depends on the addresses of the labels in it. -/
theorem evaluate_congr {t t' : Addresses} : ∀ w : Word, (∀ l ∈ w.refs, t'[l.index]? = t[l.index]?) →
    evaluate t' w = evaluate t w
  | .num _, _ => rfl
  | .addr l, h => by
    unfold evaluate
    rw [h l (by simp [Word.refs])]
  | .sum parts, h => evaluateSum_congr parts h

theorem evaluateSum_congr {t t' : Addresses} : ∀ ws : List Word,
    (∀ l ∈ Word.refsAll ws, t'[l.index]? = t[l.index]?) → evaluateSum t' ws = evaluateSum t ws
  | [], _ => rfl
  | w :: ws, h => by
    unfold evaluateSum
    rw [evaluate_congr w fun l hl => h l (by simp [Word.refsAll, hl]),
      evaluateSum_congr ws fun l hl => h l (by simp [Word.refsAll, hl])]

end

/-- The two images have the same word at an address, or it belongs to a choice, or it is the address of a label that a
choice moves. -/
def WordCases (asm asm' : Assembly) (i : Nat) : Prop :=
  (∃ v, asm.words[i]? = some v ∧ asm'.words[i]? = some v) ∨
    (∃ b op, asm.Variant asm' b op ∧ b ≤ i ∧ i < b + op.size) ∨
    ∃ (l : Label) (b b' : Nat), asm.Moved asm' l ∧ asm.address? l = some b ∧ asm'.address? l = some b' ∧
      asm.words[i]? = some (b : Int) ∧ asm'.words[i]? = some (b' : Int)

/-- A word that was written outside of choices. -/
theorem wordCases_cell {c : Cell} (h : asm.HoldsCell a c) (h' : asm'.HoldsCell a c)
    (hrefs : ∀ l ∈ c.word.refs,
      (∃ b, asm.address? l = some b ∧ asm'.address? l = some b) ∨ asm.Moved asm' l)
    (hfolded : ∀ l ∈ c.word.folded, ∃ b, asm.address? l = some b ∧ asm'.address? l = some b) :
    asm.WordCases asm' a := by
  obtain ⟨v, hv, hword⟩ := h.word
  obtain ⟨v', hv', hword'⟩ := h'.word
  cases hw : c.word with
  | num n =>
    rw [hw] at hv hv'
    obtain rfl : n = v := Except.ok.inj hv
    obtain rfl : n = v' := Except.ok.inj hv'
    exact .inl ⟨n, hword, hword'⟩
  | addr l =>
    rw [hw] at hv hv' hrefs
    have hvalue : ∀ {t : Addresses} {v : Int} {b : Nat}, t[l.index]? = some b → evaluate t (.addr l) = .ok v →
        v = b := by
      intro t v b hb hv
      simp only [evaluate, hb] at hv
      exact (Except.ok.inj hv).symm
    rcases hrefs l (by simp [Word.refs]) with ⟨b, hb, hb'⟩ | hmoved
    · obtain rfl := hvalue hb hv
      obtain rfl := hvalue hb' hv'
      exact .inl ⟨b, hword, hword'⟩
    · obtain ⟨b, source, target, k, k', hvariant, hl, hk, hk', haddress, haddress'⟩ := hmoved
      obtain rfl := hvalue haddress hv
      obtain rfl := hvalue haddress' hv'
      exact .inr (.inr ⟨l, b + k, b + k', ⟨b, source, target, k, k', hvariant, hl, hk, hk', haddress, haddress'⟩,
        haddress, haddress', hword, hword'⟩)
  | sum parts =>
    rw [hw] at hv hv' hfolded
    have heq : evaluate asm'.addresses (.sum parts) = evaluate asm.addresses (.sum parts) :=
      evaluate_congr _ fun l hl => by
        obtain ⟨b, hb, hb'⟩ := hfolded l hl
        exact hb'.trans hb.symm
    obtain rfl : v' = v := by
      rw [heq, hv] at hv'
      exact (Except.ok.inj hv').symm
    exact .inl ⟨v', hword, hword'⟩

namespace Images

variable {T : Template}

theorem word_cases (h : Images asm asm' a T)
    (hrefs : ∀ l ∈ Item.refs T.items,
      (∃ b, asm.address? l = some b ∧ asm'.address? l = some b) ∨ asm.Moved asm' l)
    (hfolded : ∀ l ∈ Item.folded T.items, ∃ b, asm.address? l = some b ∧ asm'.address? l = some b)
    {i : Nat} (hle : a ≤ i) (hlt : i < a + Item.size T.items) : asm.WordCases asm' i := by
  induction T generalizing a with
  | nil => exact absurd hlt (Nat.not_lt_of_le hle)
  | cons segment T ih =>
    rw [Template.items_cons] at hrefs hfolded hlt
    rw [Item.refs_append] at hrefs
    rw [Item.folded_append] at hfolded
    rw [Item.size_append] at hlt
    have hrefs' := fun l hl => hrefs l (List.mem_append_right _ hl)
    have hfolded' := fun l hl => hfolded l (List.mem_append_right _ hl)
    cases segment with
    | item item =>
      obtain ⟨hi, hi', hrest⟩ := h.item
      cases item with
      | hanging l =>
        have hnone : Item.size (Segment.item (.hanging l)).items = 0 := rfl
        exact ih hrest hrefs' hfolded' hle (by show i < a + 0 + _; omega)
      | cell c =>
        by_cases heq : i = a
        · subst heq
          refine wordCases_cell hi.1 hi'.1 (fun l hl => hrefs l (List.mem_append_left _ ?_))
            fun l hl => hfolded l (List.mem_append_left _ ?_)
          · simpa [Segment.items, Item.refs, Item.mentioned] using hl
          · simpa [Segment.items, Item.folded, Item.summed] using hl
        · have hone : Item.size (Segment.item (.cell c)).items = 1 := rfl
          exact ih hrest hrefs' hfolded' (show a + 1 ≤ i by omega) (show i < a + 1 + _ by omega)
    | choice op =>
      obtain ⟨hvariant, hrest⟩ := h.choice
      have hsize : Item.size (Segment.choice op).items = op.size := rfl
      by_cases hin : i < a + op.size
      · exact .inr (.inl ⟨a, op, hvariant, hle, hin⟩)
      · exact ih hrest hrefs' hfolded' (by omega) (by omega)

end Images

end Assembly

end Lamcode
