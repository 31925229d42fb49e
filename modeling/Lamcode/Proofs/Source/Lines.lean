import Mathlib.Data.List.DropRight
import Lamcode.Proofs.Tree.Layout

/-!
# Lamcode.Proofs.Source.Lines — the line of a place in a source

A place in a source is known from the text in front of it and the text behind it. Its line is what both hold up to the
next line feed, its line number counts the line feeds in front of it, and its column the bytes on its line in front of
it. `LineMap.position_eq` says that the map of lines gives these.
-/

namespace Lamcode

/-- What text holds behind its last line feed. -/
def lastLine (before : List Char) : List Char :=
  before.rtakeWhile (· != '\n')

/-- What text holds in front of its first line feed. -/
def firstLine (after : List Char) : List Char :=
  after.takeWhile (· != '\n')

theorem lastLine_eq_self {before : List Char} (h : '\n' ∉ before) : lastLine before = before :=
  List.rtakeWhile_eq_self_iff.2 (ne_newline h)

/-- Lines above do not change the last line. -/
theorem lastLine_below (line before : List Char) : lastLine (line ++ '\n' :: before) = lastLine before := by
  unfold lastLine
  induction before using List.reverseRecOn with
  | nil => rw [List.rtakeWhile_concat_neg _ _ _ (by decide), List.rtakeWhile_nil]
  | append_singleton before c ih =>
    rw [← List.cons_append, ← List.append_assoc, List.rtakeWhile_concat, List.rtakeWhile_concat, ih]

/-- Texts are built from lines: the last one has no line feed, and each other one ends in front of its line feed. -/
theorem rows_induction {P : List Char → Prop} (last : ∀ line, '\n' ∉ line → P line)
    (row : ∀ line text, '\n' ∉ line → P text → P (line ++ '\n' :: text)) (cs : List Char) : P cs := by
  induction hlength : cs.length using Nat.strongRecOn generalizing cs with
  | ind n ih =>
    subst hlength
    by_cases hmem : '\n' ∈ cs
    · obtain ⟨line, text, rfl, hline⟩ := List.eq_append_cons_of_mem hmem
      have hshorter : text.length < (line ++ '\n' :: text).length := by simp; omega
      exact row line text hline (ih _ hshorter text rfl)
    · exact last cs hmem

namespace LineMap

/-- The line of a place: its index counts the line feeds in front of the place, and it starts so many bytes in front of
the place as the place has text on its line. -/
theorem exists_covers (before after : List Char) (start : Nat) :
    ∃ s, Covers (linesFrom start (before ++ after)) (start + byteWidth before) (before.count '\n')
        ⟨s, lastLine before ++ firstLine after⟩ ∧
      s + byteWidth (lastLine before) = start + byteWidth before := by
  induction before using rows_induction generalizing start with
  | last before hbefore =>
    have htake : (before ++ after).takeWhile (· != '\n') = before ++ firstLine after :=
      List.takeWhile_append_of_pos (ne_newline hbefore)
    refine ⟨start, ?_, by rw [lastLine_eq_self hbefore]⟩
    rw [lastLine_eq_self hbefore, List.count_eq_zero_of_not_mem hbefore, ← htake]
    apply covers_first (Nat.le_add_right _ _)
    rw [htake, byteWidth_append]
    omega
  | row line below hline ih =>
    have hwidth : start + byteWidth (line ++ '\n' :: below) = start + byteWidth line + 1 + byteWidth below := by
      rw [byteWidth_append, Nat.add_assoc, Nat.add_assoc]
      rfl
    have hcount : (line ++ '\n' :: below).count '\n' = below.count '\n' + 1 := by
      rw [List.count_append, List.count_eq_zero_of_not_mem hline, List.count_cons_self, Nat.zero_add]
    obtain ⟨s, hcovers, hs⟩ := ih (start + byteWidth line + 1)
    refine ⟨s, ?_, by rw [lastLine_below, hs, hwidth]⟩
    rw [List.append_assoc, List.cons_append, linesFrom_row hline, hwidth, hcount, lastLine_below]
    exact hcovers.below _

/-- How many spaces and tabs text starts with. -/
def leadingBlanks (line : List Char) : Nat :=
  (line.takeWhile fun c => c == ' ' || c == '\t').length

/-- The position of the place with `before` in front of it and `after` behind it. -/
def positionBetween (before after : List Char) (opensLine : Bool) : Position where
  line := 1 + before.count '\n'
  column := 1 + byteWidth (lastLine before)
  indent := leadingBlanks (lastLine before ++ firstLine after)
  opensLine := opensLine

theorem position_eq {source : String} {before after : List Char} (h : source.toList = before ++ after)
    (opensLine : Bool) :
    (ofString source).position (byteWidth before) opensLine = positionBetween before after opensLine := by
  obtain ⟨s, hcovers, hs⟩ := exists_covers before after 0
  rw [Nat.zero_add] at hcovers hs
  rw [← h] at hcovers
  rw [position, lineOf_eq hcovers, ← hs]
  show (⟨_, s + byteWidth (lastLine before) - s + 1, _, _⟩ : Position) = _
  rw [Nat.add_sub_cancel_left, Nat.add_comm _ 1, Nat.add_comm _ 1]
  rfl

end LineMap

end Lamcode
