import Mathlib.Data.List.DropRight
import Lamcode.Source.LineMap

/-!
# Lamcode.Proofs.Source.Search — the line that the search finds

The starts of lines increase, so just one line covers an offset: the last one that starts at or before it (`Covers`).
The search halves the table around this line, and ends at it whether or not the offset is the start of a line
(`covers_lineOf`).
-/

namespace Lamcode

theorem ne_newline {line : List Char} (h : '\n' ∉ line) : ∀ c ∈ line, (c != '\n') = true := by
  intro c hc
  rw [bne_iff_ne]
  rintro rfl
  exact h hc

namespace LineMap

/-- The line with index `i` is the last one that starts at or before the offset. -/
structure Covers (lines : List SourceLine) (offset i : Nat) (l : SourceLine) : Prop where
  line : lines[i]? = some l
  start_le : l.start ≤ offset
  lt_start : ∀ j next, i < j → lines[j]? = some next → offset < next.start

namespace Covers

variable {lines : List SourceLine} {offset i i' : Nat} {l l' : SourceLine}

theorem le_index (h : Covers lines offset i l) (h' : Covers lines offset i' l') : i' ≤ i := by
  apply Nat.le_of_not_lt
  intro hlt
  have hlate := h.lt_start i' l' hlt h'.line
  have hearly := h'.start_le
  omega

theorem unique (h : Covers lines offset i l) (h' : Covers lines offset i' l') : i = i' ∧ l = l' := by
  obtain rfl : i = i' := Nat.le_antisymm (h'.le_index h) (h.le_index h')
  exact ⟨rfl, Option.some.inj (h.line.symm.trans h'.line)⟩

/-- The first line covers the offset if all lines below it start behind the offset. -/
theorem head (hle : l.start ≤ offset) (hlt : ∀ next ∈ lines, offset < next.start) :
    Covers (l :: lines) offset 0 l where
  line := rfl
  start_le := hle
  lt_start := by
    intro j next hj hnext
    cases j with
    | zero => exact absurd hj (Nat.lt_irrefl 0)
    | succ j => exact hlt next (List.mem_of_getElem? hnext)

/-- One more line above does not change which line covers the offset. -/
theorem below (h : Covers lines offset i l) (above : SourceLine) : Covers (above :: lines) offset (i + 1) l where
  line := h.line
  start_le := h.start_le
  lt_start := by
    intro j next hj hnext
    cases j with
    | zero => exact absurd hj (Nat.not_lt_zero _)
    | succ j => exact h.lt_start j next (Nat.lt_of_succ_lt_succ hj) hnext

end Covers

/-! ## The search -/

variable (m : LineMap) {offset : Nat}

theorem start_lt_start {i j : Nat} (hi : i < m.table.size) (hj : j < m.table.size) (hlt : i < j) :
    m.table[i].start < m.table[j].start :=
  List.pairwise_iff_getElem.1 m.increasing i j hi hj hlt

theorem start_le_start {i j : Nat} (hi : i < m.table.size) (hj : j < m.table.size) (hle : i ≤ j) :
    m.table[i].start ≤ m.table[j].start := by
  rcases Nat.lt_or_eq_of_le hle with hlt | rfl
  · exact Nat.le_of_lt (m.start_lt_start hi hj hlt)
  · exact Nat.le_refl _

/-- Halving keeps the covering line in the part that is searched: the first line of the part starts at or before the
offset, and all lines behind the part start behind it. -/
theorem covers_narrow {base size : Nat} (hpos : 0 < size) (h : base + size ≤ m.table.size)
    (hle : m.table[base].start ≤ offset)
    (hlt : ∀ j, (hj : j < m.table.size) → base + size ≤ j → offset < m.table[j].start) {i : Fin m.table.size}
    (hi : m.narrow offset base size hpos h = i) : Covers m.table.toList offset i m.table[i] := by
  fun_induction narrow m offset base size hpos h with
  | case1 base hpos h =>
    rw [narrow, dif_pos rfl] at hi
    subst hi
    refine ⟨by simp, hle, ?_⟩
    intro j next hj hnext
    obtain ⟨hj', rfl⟩ := List.getElem?_eq_some_iff.1 hnext
    exact hlt j hj' hj
  | case2 base size hpos h hone hmiddle ih =>
    -- The part that is left may still hold the middle line, but none behind it.
    rw [narrow, dif_neg hone, if_pos hmiddle] at hi
    refine ih hle ?_ hi
    intro j hj hend
    have hbehind := m.start_le_start (by omega) hj (show base + size / 2 ≤ j by omega)
    omega
  | case3 base size hpos h hone hmiddle ih =>
    rw [narrow, dif_neg hone, if_neg hmiddle] at hi
    refine ih (Nat.le_of_not_lt hmiddle) ?_ hi
    intro j hj hend
    exact hlt j hj (by omega)

/-- The line that is left never starts behind the offset, so it is the one that the search finds, or the place to put a
line in is right behind it. -/
theorem covers_index (offset : Nat) : Covers m.table.toList offset (m.index offset) (m.lineOf offset).2 := by
  have hpos := m.nonempty
  have hall : 0 + m.table.size ≤ m.table.size := Nat.le_of_eq (Nat.zero_add _)
  have hfirst : m.table[0].start ≤ offset := by
    rw [m.first_start]
    exact Nat.zero_le offset
  have hbehind : ∀ j, (hj : j < m.table.size) → 0 + m.table.size ≤ j → offset < m.table[j].start := by
    intro j hj hend
    omega
  apply m.covers_narrow hpos hall hfirst hbehind
  have hnarrow := m.covers_narrow hpos hall hfirst hbehind rfl
  unfold index search
  rcases Nat.lt_or_eq_of_le hnarrow.start_le with hlt | heq
  · simp only [Nat.compare_eq_lt.2 hlt]
    rfl
  · simp only [Nat.compare_eq_eq.2 heq]

theorem covers_lineOf (offset : Nat) :
    ∃ i l, m.lineOf offset = (i + 1, l) ∧ Covers m.table.toList offset i l :=
  ⟨m.index offset, (m.lineOf offset).2, rfl, m.covers_index offset⟩

theorem lineOf_eq {m : LineMap} {i : Nat} {l : SourceLine} (h : Covers m.table.toList offset i l) :
    m.lineOf offset = (i + 1, l) := by
  obtain ⟨hi, hl⟩ := (m.covers_index offset).unique h
  exact Prod.ext (congrArg (· + 1) hi) hl

theorem line?_of_covers {m : LineMap} {i : Nat} {l : SourceLine} (h : Covers m.table.toList offset i l) :
    m.line? (i + 1) = some l := by
  rw [line?, ← Array.getElem?_toList]
  exact h.line

theorem indent_of_covers {m : LineMap} {i : Nat} {l : SourceLine} (h : Covers m.table.toList offset i l) :
    m.indent (i + 1) = l.indent := by
  rw [indent, line?_of_covers h]
  rfl

/-! ## The lines of a text -/

theorem takeWhile_row {line : List Char} (h : '\n' ∉ line) (text : List Char) :
    (line ++ '\n' :: text).takeWhile (· != '\n') = line := by
  rw [List.takeWhile_append_of_pos (ne_newline h)]
  simp

theorem linesFrom_row {line : List Char} (h : '\n' ∉ line) (start : Nat) (text : List Char) :
    linesFrom start (line ++ '\n' :: text) = ⟨start, line⟩ :: linesFrom (start + byteWidth line + 1) text := by
  have hdrop : (line ++ '\n' :: text).dropWhile (· != '\n') = '\n' :: text := by
    rw [List.dropWhile_append_of_pos (ne_newline h)]
    simp
  rw [linesFrom]
  split
  · next hrest =>
    rw [hdrop] at hrest
    cases hrest
  · next hrest =>
    rw [hdrop] at hrest
    cases hrest
    rw [takeWhile_row h]

/-- An offset on the first line of a text. -/
theorem covers_first {cs : List Char} {start : Nat} (hle : start ≤ offset)
    (hlt : offset ≤ start + byteWidth (cs.takeWhile (· != '\n'))) :
    Covers (linesFrom start cs) offset 0 ⟨start, cs.takeWhile (· != '\n')⟩ := by
  rw [linesFrom]
  split
  · exact .head hle (List.forall_mem_nil _)
  · next rest _ =>
    apply Covers.head hle
    intro next hnext
    have hbelow := (increasing_linesFrom _ rest).2 next hnext
    omega

/-- An offset on a line with a line feed behind it. -/
theorem covers_row {line : List Char} (h : '\n' ∉ line) {start : Nat} (text : List Char) (hle : start ≤ offset)
    (hlt : offset ≤ start + byteWidth line) :
    Covers (linesFrom start (line ++ '\n' :: text)) offset 0 ⟨start, line⟩ := by
  rw [← takeWhile_row h text] at hlt
  have hcovers := covers_first hle hlt
  rwa [takeWhile_row h] at hcovers

end LineMap

end Lamcode
