import Lamcode.Proofs.Token.Spelling
import Lamcode.Text.Blank

/-!
# Lamcode.Proofs.Text.Numeral — which texts are numerals, and reading back what was written

`Numeral.IsNumeral` is the grammar of numerals, without any reading: a sign, at most one, a digit, and then digits and
underscores. `Numeral.readChars?` accepts exactly these (`isSome_readChars?_iff`). The one decimal form of an integer is
among them and stands for that integer (`readChars?_write`); it is made of characters that separate nothing in any text
that the program reads.
-/

namespace Lamcode.Text.Numeral

/-! ## The grammar -/

/-- A digit, and then digits and underscores. -/
def isMagnitude : List Char → Bool
  | [] => false
  | d :: rest => d.isDigit && rest.all fun c => c == '_' || c.isDigit

/-- A magnitude with at most one sign in front of it. -/
inductive IsNumeral : List Char → Prop
  | unsigned {ds : List Char} : isMagnitude ds = true → IsNumeral ds
  | plus {ds : List Char} : isMagnitude ds = true → IsNumeral ('+' :: ds)
  | minus {ds : List Char} : isMagnitude ds = true → IsNumeral ('-' :: ds)

theorem isSome_readDigits?_iff (cs : List Char) (value : Nat) :
    (readDigits? cs value).isSome = cs.all fun c => c == '_' || c.isDigit := by
  induction cs generalizing value with
  | nil => rfl
  | cons c rest ih =>
    rw [readDigits?, List.all_cons]
    by_cases hunderscore : c == '_'
    · simp [hunderscore, ih]
    · by_cases hdigit : c.isDigit <;> simp [hunderscore, hdigit, ih]

theorem isSome_readMagnitude?_iff (cs : List Char) : (readMagnitude? cs).isSome = isMagnitude cs := by
  cases cs with
  | nil => rfl
  | cons c rest =>
    rw [readMagnitude?, isMagnitude]
    by_cases hunderscore : c = '_'
    · subst hunderscore
      rfl
    · have hbeq : (c == '_') = false := by simpa using hunderscore
      rw [hbeq]
      simp [isSome_readDigits?_iff, hbeq]

theorem isSome_readChars?_minus (ds : List Char) : (readChars? ('-' :: ds)).isSome = isMagnitude ds := by
  rw [← isSome_readMagnitude?_iff, readChars?]
  cases readMagnitude? ds <;> rfl

theorem isSome_readChars?_plus (ds : List Char) : (readChars? ('+' :: ds)).isSome = isMagnitude ds := by
  rw [← isSome_readMagnitude?_iff, readChars?, Option.isSome_map]

/-- A numeral is read if and only if the grammar has it. -/
theorem isSome_readChars?_iff (cs : List Char) : (readChars? cs).isSome ↔ IsNumeral cs := by
  by_cases hminus : ∃ ds, cs = '-' :: ds
  · obtain ⟨ds, rfl⟩ := hminus
    rw [isSome_readChars?_minus]
    refine ⟨.minus, fun h => ?_⟩
    cases h with
    | minus h => exact h
    | unsigned h => cases h
  · by_cases hplus : ∃ ds, cs = '+' :: ds
    · obtain ⟨ds, rfl⟩ := hplus
      rw [isSome_readChars?_plus]
      refine ⟨.plus, fun h => ?_⟩
      cases h with
      | plus h => exact h
      | unsigned h => cases h
    · have hread : readChars? cs = (readMagnitude? cs).map Int.ofNat := by
        unfold readChars?
        split
        · exact absurd ⟨_, rfl⟩ hminus
        · exact absurd ⟨_, rfl⟩ hplus
        · rfl
      rw [hread, Option.isSome_map, isSome_readMagnitude?_iff]
      refine ⟨.unsigned, fun h => ?_⟩
      cases h with
      | minus h => exact absurd ⟨_, rfl⟩ hminus
      | plus h => exact absurd ⟨_, rfl⟩ hplus
      | unsigned h => exact h

/-! ## The decimal form -/

theorem readDigits?_digits {ds : List Char} (h : ∀ c ∈ ds, c.isDigit = true) (value : Nat) :
    readDigits? ds value = some (ds.foldl (fun v c => v * 10 + (c.toNat - '0'.toNat)) value) := by
  induction ds generalizing value with
  | nil => rfl
  | cons c rest ih =>
    rw [List.forall_mem_cons] at h
    have hunderscore : (c == '_') = false := by
      rw [beq_eq_false_iff_ne]
      rintro rfl
      cases h.1
    rw [readDigits?, hunderscore, h.1, List.foldl_cons]
    exact ih h.2 _

/-- The digits of a number are read as that number. -/
theorem readMagnitude?_repr (n : Nat) : readMagnitude? n.repr.toList = some n := by
  obtain ⟨d, ds, hlist, hd, hds⟩ := Scan.exists_repr_eq_cons n
  have hvalue := Scan.digitsValue_repr n
  have hread := readDigits?_digits (List.forall_mem_cons.2 ⟨hd, hds⟩) 0
  have hunderscore : (d == '_') = false := by
    rw [beq_eq_false_iff_ne]
    rintro rfl
    cases hd
  rw [hlist] at hvalue ⊢
  rw [readMagnitude?, hunderscore]
  exact hread.trans (congrArg some hvalue)

theorem toList_write_negSucc (n : Nat) : (write (.negSucc n)).toList = '-' :: (n + 1).repr.toList := by
  rw [write, String.toList_append]
  rfl

/-- What is written is read back. -/
theorem readChars?_write (n : Int) : readChars? (write n).toList = some n := by
  cases n with
  | negSucc n =>
    rw [toList_write_negSucc, readChars?, readMagnitude?_repr]
    rfl
  | ofNat n =>
    obtain ⟨d, ds, hlist, hd, -⟩ := Scan.exists_repr_eq_cons n
    have hread := readMagnitude?_repr n
    rw [write]
    rw [hlist] at hread ⊢
    -- the first character is a digit, so neither sign is taken off
    unfold readChars?
    split
    · next heq =>
      cases heq
      cases hd
    · next heq =>
      cases heq
      cases hd
    · rw [hread]
      rfl

/-- A decimal form is a sign or digits throughout. -/
theorem eq_minus_or_isDigit_of_mem_write {n : Int} {c : Char} (h : c ∈ (write n).toList) :
    c = '-' ∨ c.isDigit = true := by
  have hrepr : ∀ {k : Nat}, c ∈ k.repr.toList → c.isDigit = true := by
    intro k hk
    obtain ⟨d, ds, hlist, hd, hds⟩ := Scan.exists_repr_eq_cons k
    rw [hlist] at hk
    rcases List.mem_cons.1 hk with rfl | hk
    · exact hd
    · exact hds c hk
  cases n with
  | ofNat n => exact .inr (hrepr h)
  | negSucc n =>
    rw [toList_write_negSucc] at h
    exact (List.mem_cons.1 h).imp id hrepr

theorem toNat_of_mem_write {n : Int} {c : Char} (h : c ∈ (write n).toList) :
    c.toNat = 45 ∨ 48 ≤ c.toNat ∧ c.toNat ≤ 57 := by
  rcases eq_minus_or_isDigit_of_mem_write h with rfl | hdigit
  · exact .inl rfl
  · exact .inr (Char.isDigit_iff_toNat.1 hdigit)

theorem isBlank_of_mem_write {n : Int} {c : Char} (h : c ∈ (write n).toList) : isBlank c = false := by
  have hnat := toNat_of_mem_write h
  rw [← Bool.not_eq_true]
  intro hblank
  simp only [isBlank, Bool.or_eq_true, Bool.and_eq_true, decide_eq_true_eq, beq_iff_eq] at hblank
  omega

theorem write_ne_nil (n : Int) : (write n).toList ≠ [] := by
  intro h
  have := readChars?_write n
  rw [h] at this
  cases this

end Lamcode.Text.Numeral
