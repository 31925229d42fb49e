import Lamcode.Source.Position

/-!
# Lamcode.Source.LineMap — the lines of a source text

Offsets into a source count bytes of its UTF-8 form. A line map holds each line with the offset at
which it starts, and so turns offsets into lines and columns.
-/

namespace Lamcode

/-- The number of bytes that the characters take in UTF-8. -/
def byteWidth : List Char → Nat
  | [] => 0
  | c :: cs => c.utf8Size + byteWidth cs

/-- One line of a source: the offset at which it starts and its characters without the line feed. -/
structure SourceLine where
  start : Nat
  chars : List Char
  deriving DecidableEq

namespace SourceLine

/-- How many spaces and tabs the line starts with. -/
def indent (l : SourceLine) : Nat :=
  (l.chars.takeWhile fun c => c == ' ' || c == '\t').length

/-- The text of the line, without the carriage returns at its end. -/
def text (l : SourceLine) : String :=
  String.ofList (l.chars.reverse.dropWhile (· == '\r')).reverse

end SourceLine

/-- The lines of a source in a table, in the order of their starts. There is always a first one, which may be
empty. -/
structure LineMap where
  table : Array SourceLine
  nonempty : 0 < table.size
  first_start : table[0].start = 0
  increasing : table.toList.Pairwise fun l l' => l.start < l'.start

namespace LineMap

/-- The lines of the characters from offset `start` on. -/
def linesFrom (start : Nat) (cs : List Char) : List SourceLine :=
  let line := cs.takeWhile (· != '\n')
  match h : cs.dropWhile (· != '\n') with
  | [] => [⟨start, line⟩]
  | _ :: rest => ⟨start, line⟩ :: linesFrom (start + byteWidth line + 1) rest
termination_by cs.length
decreasing_by
  have := (List.dropWhile_suffix (fun x => x != '\n') (l := cs)).length_le
  rw [h] at this
  simp only [List.length_cons] at this
  omega

theorem exists_linesFrom_eq (start : Nat) (cs : List Char) :
    ∃ below, linesFrom start cs = ⟨start, cs.takeWhile (· != '\n')⟩ :: below := by
  rw [linesFrom]
  split <;> exact ⟨_, rfl⟩

theorem increasing_linesFrom (start : Nat) (cs : List Char) :
    (linesFrom start cs).Pairwise (fun l l' => l.start < l'.start) ∧ ∀ l ∈ linesFrom start cs, start ≤ l.start := by
  fun_induction linesFrom start cs with
  | case1 start cs line _ => simp
  | case2 start cs line _ rest _ ih =>
    obtain ⟨hpairwise, hle⟩ := ih
    have hbelow : ∀ l ∈ linesFrom (start + byteWidth line + 1) rest, start < l.start := by
      intro l hl
      have := hle l hl
      omega
    rw [List.pairwise_cons, List.forall_mem_cons]
    exact ⟨⟨hbelow, hpairwise⟩, Nat.le_refl start, fun l hl => Nat.le_of_lt (hbelow l hl)⟩

/-- The lines of a source text. -/
def ofString (source : String) : LineMap where
  table := (linesFrom 0 source.toList).toArray
  nonempty := by
    obtain ⟨below, h⟩ := exists_linesFrom_eq 0 source.toList
    simp [h]
  first_start := by
    obtain ⟨below, h⟩ := exists_linesFrom_eq 0 source.toList
    simp [h]
  increasing := (increasing_linesFrom 0 source.toList).1

/-- The line with a number, counted from 1. -/
def line? (m : LineMap) (number : Nat) : Option SourceLine :=
  match number with
  | 0 => none
  | n + 1 => m.table[n]?

/-- Halves the `size` lines from index `base` on until one is left. The half from the middle on is kept if
the middle line starts at or before the offset. -/
def narrow (m : LineMap) (offset base size : Nat) (hpos : 0 < size) (h : base + size ≤ m.table.size) :
    Fin m.table.size :=
  if hone : size = 1 then ⟨base, by omega⟩
  else if offset < m.table[base + size / 2].start then
    narrow m offset base (size - size / 2) (by omega) (by omega)
  else narrow m offset (base + size / 2) (size - size / 2) (by omega) (by omega)
termination_by size

/-- Searches the table for a line that starts at the offset. If there is none, the error is the place at
which such a line would be put in. -/
def search (m : LineMap) (offset : Nat) : Except (Fin (m.table.size + 1)) (Fin m.table.size) :=
  let i := m.narrow offset 0 m.table.size m.nonempty (Nat.le_of_eq (Nat.zero_add _))
  match compare m.table[i].start offset with
  | .eq => .ok i
  | .lt => .error i.succ
  | .gt => .error i.castSucc

/-- The index of the line of an offset: the one that the search finds, or the one in front of the place that
it gives. -/
def index (m : LineMap) (offset : Nat) : Fin m.table.size :=
  match m.search offset with
  | .ok i => i
  | .error i => ⟨i - 1, by have := m.nonempty; omega⟩

/-- The line of an offset, with its number. -/
def lineOf (m : LineMap) (offset : Nat) : Nat × SourceLine :=
  (m.index offset + 1, m.table[m.index offset])

/-- The line and the column of an offset, both counted from 1. Offsets and columns have 64 bits, so the
column is zero at the greatest distance from the start of a line. -/
def lookup (m : LineMap) (offset : UInt64) : Nat × Nat :=
  let (number, line) := m.lineOf offset.toNat
  (number, (UInt64.ofNat (offset.toNat - line.start) + 1).toNat)

/-- The indent of the line with a number; zero where there is no such line. -/
def indent (m : LineMap) (number : Nat) : Nat :=
  ((m.line? number).map SourceLine.indent).getD 0

/-- The text of the line with a number; empty where there is no such line. -/
def lineText (m : LineMap) (number : Nat) : String :=
  ((m.line? number).map SourceLine.text).getD ""

/-- The position of an offset, which need not be one of the text. -/
def locate (m : LineMap) (offset : UInt64) : Position :=
  let (number, column) := m.lookup offset
  ⟨number, column, m.indent number, false⟩

/-- The position of an offset of the text. Whether it opens its line is for the caller to say. -/
def position (m : LineMap) (offset : Nat) (opensLine : Bool) : Position :=
  let (number, line) := m.lineOf offset
  ⟨number, offset - line.start + 1, line.indent, opensLine⟩

end LineMap

end Lamcode
