import Mathlib.Data.Fin.VecNotation
import Mathlib.Tactic.Ring
import Lamcode.Proofs.Machine.Reach

/-!
# Lamcode.Proofs.Machine.Decoding — which words are instructions

Any integer can come to be decoded: data words do, and words that the program has written itself. A word is an
instruction just if it is not negative and its low digits, two for the operation and one for each operand, are those of
an encoding; the digits above them are free. Every other word is refused for its low part or for its first digit that
is no mode (`Refused`). The main statement is `decode_exact`.
-/

namespace Lamcode

/-! ## Digits -/

/-- The decimal digit of a word at a place, counted from 0 at the low end. -/
def digitAt (w : Int) (place : Nat) : Int :=
  w / 10 ^ place % 10

theorem digitAt_zero (w : Int) : digitAt w 0 = w % 10 := by
  rw [digitAt, Int.pow_zero, Int.ediv_one]

theorem digitAt_add (w : Int) (n k : Nat) : digitAt w (n + k) = digitAt (w / 10 ^ n) k := by
  rw [digitAt, digitAt, Int.ediv_ediv_of_nonneg (Int.pow_nonneg (by decide)), Int.pow_add]

theorem digitAt_succ (w : Int) (k : Nat) : digitAt w (k + 1) = digitAt (w / 10) k := by
  rw [Nat.add_comm, digitAt_add, Int.pow_one]

theorem digitAt_nonneg (w : Int) (place : Nat) : 0 ≤ digitAt w place :=
  Int.emod_nonneg _ (by decide)

theorem digitAt_lt (w : Int) (place : Nat) : digitAt w place < 10 :=
  Int.emod_lt_of_pos _ (by decide)

/-- A remainder in two parts: that by the first factor, and that of what is left by the second one. -/
theorem emod_mul_eq (w : Int) {a : Int} (ha : 0 ≤ a) (b : Int) : w % (a * b) = w % a + a * (w / a % b) := by
  rw [Int.emod_def, Int.emod_def, Int.emod_def, Int.ediv_ediv_of_nonneg ha]
  ring

namespace Mode

theorem ofDigit?_eq_some_iff {d : Int} {m : Mode} : ofDigit? d = some m ↔ m.digit = d := by
  constructor
  · intro h
    unfold ofDigit? at h
    split at h
    · next hd => cases h; exact hd.symm
    split at h
    · next hd => cases h; exact hd.symm
    split at h
    · next hd => cases h; exact hd.symm
    · cases h
  · rintro rfl
    exact ofDigit?_digit m

theorem ofDigit?_eq_none_iff {d : Int} (hd : 0 ≤ d) : ofDigit? d = none ↔ 2 < d := by
  unfold ofDigit?
  grind

theorem digit_nonneg (m : Mode) : 0 ≤ m.digit := by
  cases m <;> decide

theorem digit_le (m : Mode) : m.digit ≤ 2 := by
  cases m <;> decide

theorem digit_injective {m m' : Mode} (h : m.digit = m'.digit) : m = m' := by
  rw [← Option.some_inj, ← ofDigit?_digit, h, ofDigit?_digit]

theorem exists_digit_or {d : Int} (hd : 0 ≤ d) : (∃ m : Mode, m.digit = d) ∨ 2 < d := by
  cases h : ofDigit? d with
  | some m => exact .inl ⟨m, ofDigit?_eq_some_iff.1 h⟩
  | none => exact .inr ((ofDigit?_eq_none_iff hd).1 h)

end Mode

namespace Opcode

theorem code_pos (op : Opcode) : 0 < op.code := by
  cases op <;> decide

theorem arity_le (op : Opcode) : op.arity ≤ 3 := by
  cases op <;> decide

theorem code_lt (op : Opcode) : op.code < 100 := by
  cases op <;> decide

theorem ofCode?_eq_some_iff {n : Int} {op : Opcode} : ofCode? n = some op ↔ op.code = n := by
  constructor
  · intro h
    have hcode := List.find?_some (show all.find? (fun op => op.code == n) = some op from h)
    exact beq_iff_eq.1 hcode
  · rintro rfl
    exact ofCode?_code op

theorem ofCode?_eq_none_iff {n : Int} : ofCode? n = none ↔ ∀ op : Opcode, op.code ≠ n := by
  rw [Option.eq_none_iff_forall_ne_some]
  exact forall_congr' fun op => not_congr ofCode?_eq_some_iff

/-- The low part of a word has the word's sign, so it is an operation only in words above zero. -/
theorem pos_of_code_eq {op : Opcode} {w : Int} (h : op.code = w.tmod 100) : 0 < w := by
  by_contra hw
  have hneg : w.tmod 100 ≤ 0 := by
    rw [← Int.neg_neg w, Int.neg_tmod]
    have := Int.tmod_nonneg 100 (show 0 ≤ -w by omega)
    omega
  have := op.code_pos
  omega

end Opcode

namespace Instruction

/-! ## The mode digits -/

section

variable {r : Int} (hr : 0 ≤ r) (n : Nat)
include hr

/-- A digit that is a mode is taken off. -/
theorem decodeModes_of_mode {m : Mode} (h : m.digit = digitAt r 0) :
    decodeModes (n + 1) r = (decodeModes n (r / 10)).map (m :: ·) := by
  rw [digitAt_zero, ← Int.tmod_eq_emod_of_nonneg hr] at h
  rw [decodeModes, ← h, Mode.ofDigit?_digit, Int.tdiv_eq_ediv_of_nonneg hr]
  cases decodeModes n (r / 10) <;> rfl

/-- A digit that is no mode ends the reading. -/
theorem decodeModes_of_not_mode (h : 2 < digitAt r 0) : decodeModes (n + 1) r = .error (digitAt r 0) := by
  have hnone := (Mode.ofDigit?_eq_none_iff (digitAt_nonneg r 0)).2 h
  rw [digitAt_zero, ← Int.tmod_eq_emod_of_nonneg hr] at hnone ⊢
  rw [decodeModes, hnone]

theorem decodeModes_succ_eq_ok_iff {ms : List Mode} :
    decodeModes (n + 1) r = .ok ms ↔
      ∃ m tail, ms = m :: tail ∧ m.digit = digitAt r 0 ∧ decodeModes n (r / 10) = .ok tail := by
  rcases Mode.exists_digit_or (digitAt_nonneg r 0) with ⟨m, hm⟩ | hbad
  · rw [decodeModes_of_mode hr n hm]
    constructor
    · intro h
      cases htail : decodeModes n (r / 10) with
      | error d =>
        rw [htail] at h
        cases h
      | ok tail =>
        rw [htail] at h
        cases h
        exact ⟨m, tail, rfl, hm, rfl⟩
    · rintro ⟨m', tail, rfl, hm', htail⟩
      rw [htail, Mode.digit_injective (hm'.trans hm.symm)]
      rfl
  · rw [decodeModes_of_not_mode hr n hbad]
    constructor
    · intro h
      cases h
    · rintro ⟨m, tail, -, hm, -⟩
      have := m.digit_le
      omega

theorem decodeModes_succ_eq_error_iff {d : Int} :
    decodeModes (n + 1) r = .error d ↔
      digitAt r 0 = d ∧ 2 < d ∨ digitAt r 0 ≤ 2 ∧ decodeModes n (r / 10) = .error d := by
  rcases Mode.exists_digit_or (digitAt_nonneg r 0) with ⟨m, hm⟩ | hbad
  · rw [decodeModes_of_mode hr n hm]
    have := m.digit_le
    have hskip : ¬(digitAt r 0 = d ∧ 2 < d) := by omega
    rw [or_iff_right hskip, and_iff_right (by omega)]
    cases decodeModes n (r / 10) with
    | error d' => rfl
    | ok tail => exact ⟨fun h => (by cases h), fun h => (by cases h)⟩
  · rw [decodeModes_of_not_mode hr n hbad]
    constructor
    · intro h
      cases h
      exact .inl ⟨rfl, hbad⟩
    · rintro (⟨rfl, -⟩ | ⟨hle, -⟩)
      · rfl
      · omega

end

/-- A number in front of which a digit is put has the digits of a list of modes just if both are the digits of its
parts. -/
theorem digits_cons_iff {low rest : Int} (hlow : 0 ≤ low) (hten : low < 10) {ms : List Mode} {n : Nat} :
    ms.length = n + 1 ∧ low + 10 * rest = modeDigits ms ↔
      ∃ m tail, ms = m :: tail ∧ m.digit = low ∧ tail.length = n ∧ rest = modeDigits tail := by
  constructor
  · rintro ⟨hlength, hdigits⟩
    obtain ⟨m, tail, rfl⟩ := List.exists_cons_of_length_eq_add_one hlength
    have := m.digit_nonneg
    have := m.digit_le
    rw [modeDigits] at hdigits
    exact ⟨m, tail, rfl, by omega, Nat.succ.inj hlength, by omega⟩
  · rintro ⟨m, tail, rfl, rfl, rfl, rfl⟩
    exact ⟨rfl, rfl⟩

/-- Digits are read as modes just if they are the digits of these modes. -/
theorem decodeModes_eq_ok_iff {r : Int} (hr : 0 ≤ r) {n : Nat} {ms : List Mode} :
    decodeModes n r = .ok ms ↔ ms.length = n ∧ r % 10 ^ n = modeDigits ms := by
  induction n generalizing r ms with
  | zero =>
    rw [decodeModes, List.length_eq_zero_iff, Int.pow_zero, Int.emod_one]
    constructor
    · rintro ⟨⟩
      exact ⟨rfl, rfl⟩
    · rintro ⟨rfl, -⟩
      rfl
  | succ n ih =>
    have hrest : 0 ≤ r / 10 := Int.ediv_nonneg hr (by decide)
    have hsplit : r % 10 ^ (n + 1) = digitAt r 0 + 10 * (r / 10 % 10 ^ n) := by
      rw [Int.pow_succ', emod_mul_eq r (by decide), digitAt_zero]
    rw [hsplit, digits_cons_iff (digitAt_nonneg r 0) (digitAt_lt r 0), decodeModes_succ_eq_ok_iff hr]
    simp only [ih hrest]

/-- Reading modes fails with the first digit that is no mode. -/
theorem decodeModes_eq_error_iff {r : Int} (hr : 0 ≤ r) {n : Nat} {d : Int} :
    decodeModes n r = .error d ↔ ∃ k < n, digitAt r k = d ∧ 2 < d ∧ ∀ j < k, digitAt r j ≤ 2 := by
  induction n generalizing r with
  | zero =>
    constructor
    · intro h
      cases h
    · rintro ⟨k, hk, -⟩
      omega
  | succ n ih =>
    have hrest : 0 ≤ r / 10 := Int.ediv_nonneg hr (by decide)
    rw [decodeModes_succ_eq_error_iff hr, ih hrest]
    constructor
    · rintro (⟨hd, hbad⟩ | ⟨hlow, k, hk, hd, hbad, hbefore⟩)
      · exact ⟨0, Nat.succ_pos n, hd, hbad, fun j hj => absurd hj (Nat.not_lt_zero j)⟩
      · refine ⟨k + 1, Nat.succ_lt_succ hk, by rw [digitAt_succ, hd], hbad, fun j hj => ?_⟩
        cases j with
        | zero => exact hlow
        | succ j =>
          rw [digitAt_succ]
          exact hbefore j (Nat.lt_of_succ_lt_succ hj)
    · rintro ⟨k, hk, hd, hbad, hbefore⟩
      cases k with
      | zero => exact .inl ⟨hd, hbad⟩
      | succ k =>
        rw [digitAt_succ] at hd
        refine .inr ⟨hbefore 0 (Nat.succ_pos k), k, Nat.lt_of_succ_lt_succ hk, hd, hbad, fun j hj => ?_⟩
        rw [← digitAt_succ]
        exact hbefore (j + 1) (Nat.succ_lt_succ hj)

/-! ## Words -/

/-- Why a word is no instruction: its low part is no operation, or it is one and `k` is the first operand whose digit is
no mode. -/
inductive Refused (w : Int) (address : Nat) : Fault → Prop
  | opcode (hcode : ∀ op : Opcode, op.code ≠ w.tmod 100) : Refused w address (.unknownOpcode (w.tmod 100) address)
  | mode {op : Opcode} {k : Nat} (hcode : op.code = w.tmod 100) (hk : k < op.arity) (hdigit : 2 < digitAt w (2 + k))
    (hbefore : ∀ j < k, digitAt w (2 + j) ≤ 2) : Refused w address (.unsupportedMode (digitAt w (2 + k)) address)

section

variable {w : Int} {address : Nat} {op : Opcode}

/-- A word decodes to an instruction if its low part is the operation and the digits above it are the modes. -/
theorem decode_eq_ok_iff_parts {ms : List Mode} :
    decode w address = .ok ⟨op, ms⟩ ↔ op.code = w.tmod 100 ∧ decodeModes op.arity (w.tdiv 100) = .ok ms := by
  rw [← Opcode.ofCode?_eq_some_iff, decode]
  cases hop : Opcode.ofCode? (w.tmod 100) with
  | none => simp
  | some op' =>
    cases hmodes : decodeModes op'.arity (w.tdiv 100) with
    | error d =>
      simp only [hmodes]
      constructor
      · intro h
        cases h
      · rintro ⟨⟨⟩, h⟩
        rw [hmodes] at h
        cases h
    | ok ms' =>
      simp only [hmodes]
      constructor
      · rintro ⟨⟩
        exact ⟨rfl, hmodes⟩
      · rintro ⟨⟨⟩, h⟩
        rw [hmodes] at h
        cases h
        rfl

theorem decode_eq_error_iff_parts {f : Fault} :
    decode w address = .error f ↔
      (∀ op : Opcode, op.code ≠ w.tmod 100) ∧ f = .unknownOpcode (w.tmod 100) address ∨
        ∃ (op : Opcode) (d : Int), op.code = w.tmod 100 ∧ decodeModes op.arity (w.tdiv 100) = .error d ∧
          f = .unsupportedMode d address := by
  rw [← Opcode.ofCode?_eq_none_iff, decode]
  simp only [← Opcode.ofCode?_eq_some_iff]
  cases hop : Opcode.ofCode? (w.tmod 100) with
  | none => simp [eq_comm]
  | some op =>
    cases hmodes : decodeModes op.arity (w.tdiv 100) with
    | error d => simp [hmodes, eq_comm]
    | ok ms => simp [hmodes]

/-- The low part of a word that is not negative, and what is above it. -/
theorem emod_eq_encode_iff {ms : List Mode} {n : Nat} :
    w % 10 ^ (2 + n) = encode op ms ↔ w % 100 = op.code ∧ w / 100 % 10 ^ n = modeDigits ms := by
  have hsplit : w % 10 ^ (2 + n) = w % 100 + 100 * (w / 100 % 10 ^ n) := by
    rw [Int.pow_add]
    exact emod_mul_eq w (by decide) _
  have := op.code_pos
  have := op.code_lt
  rw [hsplit, encode]
  omega

theorem decode_eq_ok_iff {ms : List Mode} :
    decode w address = .ok ⟨op, ms⟩ ↔ ms.length = op.arity ∧ 0 ≤ w ∧ w % 10 ^ (2 + op.arity) = encode op ms := by
  rw [decode_eq_ok_iff_parts, emod_eq_encode_iff]
  constructor
  · rintro ⟨hcode, hmodes⟩
    have hw : 0 ≤ w := Int.le_of_lt (Opcode.pos_of_code_eq hcode)
    rw [Int.tmod_eq_emod_of_nonneg hw] at hcode
    rw [Int.tdiv_eq_ediv_of_nonneg hw, decodeModes_eq_ok_iff (Int.ediv_nonneg hw (by decide))] at hmodes
    exact ⟨hmodes.1, hw, hcode.symm, hmodes.2⟩
  · rintro ⟨hlength, hw, hcode, hdigits⟩
    rw [Int.tmod_eq_emod_of_nonneg hw, Int.tdiv_eq_ediv_of_nonneg hw,
      decodeModes_eq_ok_iff (Int.ediv_nonneg hw (by decide))]
    exact ⟨hcode.symm, hlength, hdigits⟩

theorem decode_eq_error_iff {f : Fault} : decode w address = .error f ↔ Refused w address f := by
  have hdigit : ∀ k, digitAt (w / 100) k = digitAt w (2 + k) := fun k => (digitAt_add w 2 k).symm
  have hmodes : ∀ {op : Opcode} {d : Int}, op.code = w.tmod 100 → (decodeModes op.arity (w.tdiv 100) = .error d ↔
      ∃ k < op.arity, digitAt w (2 + k) = d ∧ 2 < d ∧ ∀ j < k, digitAt w (2 + j) ≤ 2) := by
    intro op d hcode
    have hw : 0 ≤ w := Int.le_of_lt (Opcode.pos_of_code_eq hcode)
    rw [Int.tdiv_eq_ediv_of_nonneg hw, decodeModes_eq_error_iff (Int.ediv_nonneg hw (by decide))]
    simp only [hdigit]
  rw [decode_eq_error_iff_parts]
  constructor
  · rintro (⟨hcode, rfl⟩ | ⟨op, d, hcode, herror, rfl⟩)
    · exact .opcode hcode
    · obtain ⟨k, hk, rfl, hbad, hbefore⟩ := (hmodes hcode).1 herror
      exact .mode hcode hk hbad hbefore
  · rintro (hcode | ⟨hcode, hk, hbad, hbefore⟩)
    · exact .inl ⟨hcode, rfl⟩
    · exact .inr ⟨_, _, hcode, (hmodes hcode).2 ⟨_, hk, rfl, hbad, hbefore⟩, rfl⟩

end

/-- Digits above those of an instruction do not matter. -/
theorem decode_add_high {w : Int} {address : Nat} {i : Instruction} (h : decode w address = .ok i) {high : Int}
    (hhigh : 0 ≤ high) : decode (w + high * 10 ^ (2 + i.opcode.arity)) address = .ok i := by
  obtain ⟨hlength, hw, hdigits⟩ := decode_eq_ok_iff.1 h
  have hscale : (0 : Int) ≤ 10 ^ (2 + i.opcode.arity) := Int.pow_nonneg (by decide)
  refine decode_eq_ok_iff.2 ⟨hlength, Int.add_nonneg hw (Int.mul_nonneg hhigh hscale), ?_⟩
  rw [Int.add_mul_emod_self_right, hdigits]

/-- A negative word has a low part that is not positive, and so no operation. -/
theorem decode_of_neg {w : Int} (hw : w < 0) (address : Nat) :
    decode w address = .error (.unknownOpcode (w.tmod 100) address) := by
  refine decode_eq_error_iff.2 (.opcode fun op hcode => ?_)
  have := Opcode.pos_of_code_eq hcode
  omega

/-! ## Three mode slots -/

/-- The modes of the operands there are, read from slots for three of which the others hold `position`. -/
theorem mode_eq_iff {i : Instruction} (hlength : i.modes.length = i.opcode.arity) {m : Fin 3 → Mode}
    (hm : ∀ k : Fin 3, i.opcode.arity ≤ k → m k = .position) :
    (∀ k : Fin 3, i.mode k = m k) ↔ i.modes = (List.ofFn m).take i.opcode.arity := by
  have harity := Opcode.arity_le i.opcode
  constructor
  · intro h
    refine List.ext_getElem (by simp [hlength, harity]) fun k hk _ => ?_
    have hmode := h ⟨k, by omega⟩
    rw [mode, List.getD_eq_getElem?_getD, List.getElem?_eq_getElem hk, Option.getD_some] at hmode
    rw [hmode, List.getElem_take, List.getElem_ofFn]
  · intro h k
    rw [mode, h, List.getD_eq_getElem?_getD]
    by_cases hk : k.val < i.opcode.arity
    · rw [List.getElem?_take_of_lt hk, List.getElem?_ofFn, dif_pos k.isLt, Option.getD_some]
    · rw [List.getElem?_take_eq_none (Nat.le_of_not_lt hk), hm k (Nat.le_of_not_lt hk), Option.getD_none]

/-- A word is the instruction with an operation and modes, one for each of three operands and `position` for those that
the operation does not have, if and only if it is not negative and its low digits are those of the encoding. Hence
encoded instructions decode to themselves, the digits above do not matter, and negative words are refused. Where a word
is refused, the reason is its low part or, if that is an operation, the first of its digits that is no mode. -/
theorem decode_exact (w : Int) (address : Nat) :
    (∀ (op : Opcode) (m : Fin 3 → Mode), (∀ k : Fin 3, op.arity ≤ k → m k = .position) →
      ((∃ i, decode w address = .ok i ∧ i.opcode = op ∧ ∀ k : Fin 3, i.mode k = m k) ↔
        0 ≤ w ∧ w % 10 ^ (2 + op.arity) = encode op ((List.ofFn m).take op.arity))) ∧
      (∀ i, decode w address = .ok i → i.modes.length = i.opcode.arity ∧
        decode (encode i.opcode i.modes) address = .ok i ∧
        ∀ high : Int, 0 ≤ high → decode (w + high * 10 ^ (2 + i.opcode.arity)) address = .ok i) ∧
      (w < 0 → decode w address = .error (.unknownOpcode (w.tmod 100) address)) ∧
      ∀ f, decode w address = .error f ↔ Refused w address f := by
  refine ⟨fun op m hm => ?_, fun i hi => ?_, fun hw => decode_of_neg hw address, fun f => decode_eq_error_iff⟩
  · have hlength : ((List.ofFn m).take op.arity).length = op.arity := by
      have := Opcode.arity_le op
      simp [this]
    constructor
    · rintro ⟨i, hi, rfl, hmodes⟩
      have hparts := decode_eq_ok_iff.1 hi
      rw [mode_eq_iff hparts.1 hm] at hmodes
      rw [← hmodes]
      exact hparts.2
    · intro h
      refine ⟨⟨op, _⟩, decode_eq_ok_iff.2 ⟨hlength, h⟩, rfl, ?_⟩
      exact (mode_eq_iff (i := ⟨op, _⟩) hlength hm).2 rfl
  · have hlength := (decode_eq_ok_iff.1 hi).1
    exact ⟨hlength, decode_encode hlength address, fun high hhigh => decode_add_high hi hhigh⟩

/-- A word with two digits above its modes, one whose second and third digit are no modes, and a negative one. -/
theorem decode_overlong :
    (∃ i, decode 9721201 5 = .ok i ∧ i.opcode = .add ∧ i.mode 0 = .relative ∧ i.mode 1 = .immediate ∧
        i.mode 2 = .relative) ∧
      decode 74101 5 = .error (.unsupportedMode 4 5) ∧ decode (-99) 5 = .error (.unknownOpcode (-99) 5) := by
  refine ⟨?_, ?_, (decode_exact (-99) 5).2.2.1 (by decide)⟩
  · obtain ⟨i, hi, hop, hmodes⟩ := ((decode_exact 9721201 5).1 .add ![.relative, .immediate, .relative]
      (by decide)).2 (by decide)
    exact ⟨i, hi, hop, hmodes 0, hmodes 1, hmodes 2⟩
  · have hrefused : Refused 74101 5 (.unsupportedMode 4 5) :=
      @Refused.mode 74101 5 .add 1 (by decide) (by decide) (by decide) (by decide)
    exact ((decode_exact 74101 5).2.2.2 _).2 hrefused

end Instruction

end Lamcode
