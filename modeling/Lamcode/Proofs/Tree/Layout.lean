import Lamcode.Proofs.Source.Search
import Lamcode.Proofs.Token.Spelling
import Lamcode.Tree.Print

/-!
# Lamcode.Proofs.Tree.Layout — the tokens of printed trees and the lines they stand on

A printed assignment is a row of tokens for its name and value, and, if it has clauses, a row with the mark of the
block and then the rows of the clauses. Each row is a line of the text, with blanks in front of it. `Assignment.rows`
gives the tokens with the indents, without any text, and `Scan.exists_tokens_of_laidOut` says that scanning the text
gives back these tokens, each one with the number and the indent of its line, and the first one of a line marked as
such.
-/

namespace Lamcode

variable {α β : Type}

/-! ## The tokens of a tree -/

namespace Expr

mutual

/-- The tokens of the printed form. -/
def tokens : Expr α → List Token
  | .number _ value => [.number value]
  | .var _ name => [.name name]
  | .tuple _ items => .openBracket :: (tokensOf items ++ [.closeBracket])
  | .call _ f x => .openParen :: (f.tokens ++ (x.tokens ++ [.closeParen]))
  | .function _ param body => .openParen :: .name param :: .arrow :: (body.tokens ++ [.closeParen])
  | .group _ inner => inner.tokens

/-- The tokens of the printed form of a list of expressions. -/
def tokensOf : List (Expr α) → List Token
  | [] => []
  | [e] => e.tokens
  | e :: rest => e.tokens ++ .comma :: tokensOf rest

end

mutual

/-- The names of all variables and parameters. -/
def identifiers : Expr α → List String
  | .number _ _ => []
  | .var _ name => [name]
  | .tuple _ items => identifiersOf items
  | .call _ f x => f.identifiers ++ x.identifiers
  | .function _ param body => param :: body.identifiers
  | .group _ inner => inner.identifiers

/-- The names of all variables and parameters of a list of expressions. -/
def identifiersOf : List (Expr α) → List String
  | [] => []
  | e :: rest => e.identifiers ++ identifiersOf rest

end

end Expr

namespace Assignment

mutual

/-- The tokens of the printed form, line by line, each line with its indent. -/
def rows (depth : Nat) : Assignment α β → List (Nat × List Token)
  | .mk _ name value [] => [(2 * depth, .name name :: .equals :: value.tokens)]
  | .mk _ name value (c :: cs) =>
    (2 * depth, .name name :: .equals :: value.tokens) :: (2 * depth + 2, [.whereMark]) ::
      (c.rows (depth + 2) ++ rowsAll (depth + 2) cs)

/-- The tokens of the printed form of assignments. -/
def rowsAll (depth : Nat) : List (Assignment α β) → List (Nat × List Token)
  | [] => []
  | a :: rest => a.rows depth ++ rowsAll depth rest

end

mutual

/-- The names of all variables, parameters and assignments. -/
def identifiers : Assignment α β → List String
  | .mk _ name value clauses => name :: (value.identifiers ++ identifiersOf clauses)

/-- The names of all variables, parameters and assignments in a list of assignments. -/
def identifiersOf : List (Assignment α β) → List String
  | [] => []
  | a :: rest => a.identifiers ++ identifiersOf rest

end

end Assignment

/-! ## Text with a layout -/

namespace Scan

theorem isSpace_of_isNameStart {c : Char} (h : isNameStart c = true) : isSpace c = false := by
  have hnat := toNat_of_isNameStart h
  exact Bool.eq_false_iff.2 (gap_of_toNat (c := c) (by omega)).1

/-- The text is made of lines: some blanks, the spelling of some tokens and a line feed. -/
inductive LaidOut : List Char → List (Nat × List Token) → Prop
  | nil : LaidOut [] []
  | row (indent : Nat) {c : Char} {body text : List Char} {ts : List Token} {rows : List (Nat × List Token)}
    (hc : isSpace c = false) (hts : ts ≠ []) (hbody : Spells (c :: body) ts) (h : LaidOut text rows) :
    LaidOut (List.replicate indent ' ' ++ c :: body ++ '\n' :: text) ((indent, ts) :: rows)

theorem LaidOut.append {text text' : List Char} {rows rows' : List (Nat × List Token)} (h : LaidOut text rows)
    (k : LaidOut text' rows') : LaidOut (text ++ text') (rows ++ rows') := by
  induction h with
  | nil => exact k
  | row indent hc hts hbody _ ih =>
    have := row indent hc hts hbody ih
    simpa using this

namespace Spells

/-- Text in front of a character that ends every token. -/
theorem before {a cs : List Char} {c : Char} {ts us : List Token} (h : Spells a ts) (hc : isNameChar c = false)
    (hc' : c ≠ '>') (k : Spells (c :: cs) us) : Spells (a ++ c :: cs) (ts ++ us) :=
  h.append k fun rest _ => delimits_cons hc hc' (cs ++ rest)

end Spells

end Scan

open Scan

namespace Expr

mutual

theorem spells_print : ∀ (e : Expr α), (∀ x ∈ e.identifiers, isIdentifier x = true) →
    Spells e.print.toList e.tokens
  | .number _ value, _ => by
    rw [print, tokens]
    exact .number value
  | .var _ name, h => by
    rw [print, tokens]
    exact .name (h name (by simp [identifiers]))
  | .tuple _ items, h => by
    rw [print, tokens, String.toList_append, String.toList_append]
    exact .mark '[' rfl ((spells_printItems items h).before rfl (by decide) (.mark ']' rfl .nil))
  | .call _ f x, h => by
    rw [identifiers, List.forall_mem_append] at h
    rw [print, tokens]
    simp only [String.toList_append, List.append_assoc]
    have hx := (spells_print x h.2).before rfl (by decide) (.mark ')' rfl .nil)
    exact .mark '(' rfl ((spells_print f h.1).before rfl (by decide) hx.space)
  | .function _ param body, h => by
    rw [identifiers, List.forall_mem_cons] at h
    rw [print, tokens]
    simp only [String.toList_append, List.append_assoc]
    have hbody := (spells_print body h.2).before rfl (by decide) (.mark ')' rfl .nil)
    have harrow := Spells.arrow.before rfl (by decide) hbody.space
    exact .mark '(' rfl ((Spells.name h.1).before rfl (by decide) harrow.space)
  | .group _ inner, h => by
    rw [print, tokens]
    exact spells_print inner h

theorem spells_printItems : ∀ (items : List (Expr α)), (∀ x ∈ identifiersOf items, isIdentifier x = true) →
    Spells (printItems items).toList (tokensOf items)
  | [], _ => by
    rw [printItems, tokensOf]
    exact .nil
  | [e], h => by
    rw [printItems, tokensOf]
    exact spells_print e (by simpa [identifiersOf] using h)
  | e :: e' :: rest, h => by
    rw [identifiersOf, List.forall_mem_append] at h
    simp only [printItems, tokensOf, String.toList_append, List.append_assoc]
    have hrest := spells_printItems (e' :: rest) h.2
    exact (spells_print e h.1).before rfl (by decide) (.mark ',' rfl hrest.space)

end

end Expr

namespace Assignment

theorem laidOut_header {name : String} {value : Expr α} (depth : Nat) (hname : isIdentifier name = true)
    (hvalue : ∀ x ∈ value.identifiers, isIdentifier x = true) {text : List Char} {rows : List (Nat × List Token)}
    (h : LaidOut text rows) :
    LaidOut ((margin depth ++ name ++ " = " ++ value.print ++ "\n").toList ++ text)
      ((2 * depth, .name name :: .equals :: value.tokens) :: rows) := by
  have hequals := Spells.equals.before rfl (by decide) (value.spells_print hvalue).space
  have hspells := (Spells.name hname).before rfl (by decide) hequals.space
  obtain ⟨c, cs, hlist, hc, -⟩ := exists_identifier_eq_cons hname
  rw [hlist] at hspells
  have := LaidOut.row (2 * depth) (isSpace_of_isNameStart hc) (List.cons_ne_nil _ _) hspells h
  simpa [margin, hlist] using this

theorem laidOut_where (depth : Nat) {text : List Char} {rows : List (Nat × List Token)} (h : LaidOut text rows) :
    LaidOut ((margin depth ++ "  where\n").toList ++ text) ((2 * depth + 2, [.whereMark]) :: rows) := by
  have := LaidOut.row (2 * depth + 2) (isSpace_of_isNameStart (c := 'w') (by decide)) (List.cons_ne_nil _ _)
    Spells.whereMark h
  have hblanks : List.replicate (2 * depth + 2) ' ' = List.replicate (2 * depth) ' ' ++ [' ', ' '] :=
    List.replicate_append_replicate.symm
  simpa [margin, hblanks] using this

mutual

/-- An assignment is printed line by line. -/
theorem laidOut_print : ∀ (depth : Nat) (a : Assignment α β), (∀ x ∈ a.identifiers, isIdentifier x = true) →
    LaidOut (a.print depth).toList (a.rows depth)
  | depth, .mk _ name value [], h => by
    simp only [identifiers, List.forall_mem_cons, List.forall_mem_append] at h
    rw [print, rows]
    simpa using laidOut_header depth h.1 h.2.1 .nil
  | depth, .mk _ name value (c :: cs), h => by
    simp only [identifiers, identifiersOf, List.forall_mem_cons, List.forall_mem_append] at h
    rw [print, rows]
    have hblock := (laidOut_print (depth + 2) c h.2.2.1).append (laidOut_printAll (depth + 2) cs h.2.2.2)
    simpa using laidOut_header depth h.1 h.2.1 (laidOut_where depth hblock)

theorem laidOut_printAll : ∀ (depth : Nat) (as : List (Assignment α β)),
    (∀ x ∈ identifiersOf as, isIdentifier x = true) → LaidOut (printAll depth as).toList (rowsAll depth as)
  | depth, [], _ => by
    rw [printAll, rowsAll]
    exact .nil
  | depth, a :: rest, h => by
    rw [identifiersOf, List.forall_mem_append] at h
    rw [printAll, rowsAll, String.toList_append]
    exact (laidOut_print depth a h.1).append (laidOut_printAll depth rest h.2)

end

end Assignment

/-! ## Scanning text with a layout -/

/-- Tokens that stand on a line behind its first one. -/
structure Follows (line indent : Nat) (ts : List Token) (ls : List Lexeme) : Prop where
  tokens : ls.map Lexeme.token = ts
  placed : ∀ l ∈ ls, l.pos.line = line ∧ l.pos.indent = indent ∧ l.pos.opensLine = false

namespace Follows

variable {line indent : Nat} {t : Token} {ts us : List Token} {ls : List Lexeme}

theorem exists_cons (h : Follows line indent (t :: ts) ls) :
    ∃ pos rest, ls = ⟨t, pos⟩ :: rest ∧ pos.indent = indent ∧ pos.opensLine = false ∧ Follows line indent ts rest := by
  obtain ⟨htokens, hplaced⟩ := h
  cases ls with
  | nil => cases htokens
  | cons l rest =>
    cases htokens
    rw [List.forall_mem_cons] at hplaced
    exact ⟨l.pos, rest, rfl, hplaced.1.2.1, hplaced.1.2.2, rfl, hplaced.2⟩

theorem exists_append (h : Follows line indent (ts ++ us) ls) :
    ∃ ls₁ ls₂, ls = ls₁ ++ ls₂ ∧ Follows line indent ts ls₁ ∧ Follows line indent us ls₂ := by
  obtain ⟨htokens, hplaced⟩ := h
  obtain ⟨ls₁, ls₂, rfl, rfl, rfl⟩ := List.map_eq_append_iff.1 htokens
  rw [List.forall_mem_append] at hplaced
  exact ⟨ls₁, ls₂, rfl, ⟨rfl, hplaced.1⟩, rfl, hplaced.2⟩

theorem exists_singleton (h : Follows line indent [t] ls) : ∃ pos, ls = [⟨t, pos⟩] ∧ pos.indent = indent := by
  obtain ⟨pos, rest, rfl, hindent, -, hrest⟩ := h.exists_cons
  rw [List.map_eq_nil_iff.1 hrest.tokens]
  exact ⟨pos, rfl, hindent⟩

end Follows

/-- Tokens that stand on consecutive lines, of which the first one is given. -/
inductive Rows : Nat → List (Nat × List Token) → List Lexeme → Prop
  | nil (line : Nat) : Rows line [] []
  | cons (column : Nat) {line indent : Nat} {t : Token} {ts : List Token} {rows : List (Nat × List Token)}
    {rest ls : List Lexeme} (hrest : Follows line indent ts rest) (h : Rows (line + 1) rows ls) :
    Rows line ((indent, t :: ts) :: rows) (⟨t, ⟨line, column, indent, true⟩⟩ :: (rest ++ ls))

theorem Rows.append_inv {rows rows' : List (Nat × List Token)} {line : Nat} {ls : List Lexeme}
    (h : Rows line (rows ++ rows') ls) :
    ∃ ls₁ ls₂, ls = ls₁ ++ ls₂ ∧ Rows line rows ls₁ ∧ Rows (line + rows.length) rows' ls₂ := by
  induction rows generalizing line ls with
  | nil => exact ⟨[], ls, rfl, .nil line, h⟩
  | cons row rows ih =>
    cases h with
    | cons column hrest h =>
      obtain ⟨ls₁, ls₂, rfl, h₁, h₂⟩ := ih h
      refine ⟨_, ls₂, ?_, .cons column hrest h₁, ?_⟩
      · simp
      · rwa [List.length_cons, Nat.add_comm rows.length, ← Nat.add_assoc]

namespace Scan

/-- Tokens of a line that goes on. -/
theorem exists_follows_of_place {lines : LineMap} {line : Nat} {here : SourceLine} {os : List (Token × Nat)}
    (hos : ∀ x ∈ os, lines.lineOf x.2 = (line, here)) (more : List (Token × Nat)) :
    ∃ ls, place lines line (os ++ more) = ls ++ place lines line more ∧
      Follows line here.indent (os.map Prod.fst) ls := by
  induction os with
  | nil => exact ⟨[], rfl, rfl, nofun⟩
  | cons x os ih =>
    rw [List.forall_mem_cons] at hos
    obtain ⟨ls, hls, hfollows⟩ := ih hos.2
    obtain ⟨t, offset⟩ := x
    have hline : (lines.lineOf offset).1 = line := congrArg Prod.fst hos.1
    refine ⟨⟨t, lines.position offset false⟩ :: ls, ?_, congrArg (t :: ·) hfollows.tokens, ?_⟩
    · rw [List.cons_append, place, hline, hls, bne_self_eq_false]
      rfl
    · rw [List.forall_mem_cons]
      refine ⟨?_, hfollows.placed⟩
      simp [LineMap.position, hos.1]

theorem byteWidth_replicate (n : Nat) : byteWidth (List.replicate n ' ') = n := by
  induction n with
  | zero => rfl
  | succ n ih =>
    rw [List.replicate_succ, byteWidth, ih, Nat.add_comm]
    rfl

theorem indent_row (start n : Nat) {c : Char} (hc : isSpace c = false) (body : List Char) :
    SourceLine.indent ⟨start, List.replicate n ' ' ++ c :: body⟩ = n := by
  have hblank : (c == ' ' || c == '\t') = false := by
    simp only [isSpace, Bool.or_eq_false_iff] at hc ⊢
    exact hc.1.1.1
  have hall : ∀ d ∈ List.replicate n ' ', (d == ' ' || d == '\t') = true := by
    intro d hd
    rw [List.eq_of_mem_replicate hd]
    rfl
  rw [SourceLine.indent, List.takeWhile_append_of_pos hall, List.takeWhile_cons, hblank]
  simp

/-- The tokens of a text with a layout stand on its lines, wherever the text stands in a source. Of the lines of the
source only those from the text on are known. -/
theorem exists_rows_of_laidOut {text : List Char} {rows : List (Nat × List Token)} (h : LaidOut text rows)
    (lines : LineMap) {offset line above : Nat} (habove : above < line)
    (hlines : ∀ x i l, LineMap.Covers (LineMap.linesFrom offset text) x i l → lines.lineOf x = (line + i, l)) :
    ∃ ts, tokensFrom offset text = .ok ts ∧ Rows line rows (place lines above ts) := by
  induction h generalizing offset line above with
  | nil => exact ⟨[], by rw [tokensFrom], .nil line⟩
  | @row indent c body text ts rows hc hts hbody _ ih =>
    have hnewline : '\n' ∉ List.replicate indent ' ' ++ c :: body := by
      intro hmem
      rcases List.mem_append.1 hmem with hmem | hmem
      · cases List.eq_of_mem_replicate hmem
      · exact hbody.oneLine hmem
    have hwidth : byteWidth (List.replicate indent ' ' ++ c :: body) = indent + byteWidth (c :: body) := by
      rw [byteWidth_append, byteWidth_replicate]
    obtain ⟨os, htokens, hrange, hscan⟩ :=
      hbody.scans (offset + indent) ('\n' :: text) (delimits_cons rfl (by decide) text)
    -- The lines below this one are those of the rest of the text.
    have hbelow : ∀ x i l,
        LineMap.Covers (LineMap.linesFrom (offset + (indent + byteWidth (c :: body)) + 1) text) x i l →
        lines.lineOf x = (line + 1 + i, l) := by
      intro x i l hcovers
      rw [← hwidth] at hcovers
      rw [hlines x (i + 1) l, Nat.add_assoc, Nat.add_comm 1]
      rw [LineMap.linesFrom_row hnewline]
      exact hcovers.below _
    have hhere : ∀ x ∈ os, lines.lineOf x.2 = (line, ⟨offset, List.replicate indent ' ' ++ c :: body⟩) := by
      intro x hx
      have hx := hrange x hx
      apply hlines x.2 0
      apply LineMap.covers_row hnewline
      · omega
      · rw [hwidth]
        omega
    obtain ⟨more, hmore, hrows⟩ := ih line.lt_succ_self hbelow
    refine ⟨os ++ more, ?_, ?_⟩
    · rw [List.append_assoc, tokensFrom_spaces, hscan, tokensFrom_space rfl]
      have : offset + indent + byteWidth (c :: body) + '\n'.utf8Size =
          offset + (indent + byteWidth (c :: body)) + 1 := by
        rw [show '\n'.utf8Size = 1 from rfl]
        omega
      rw [this, hmore]
      rfl
    · cases os with
      | nil => exact absurd htokens.symm hts
      | cons x os =>
        rw [List.forall_mem_cons] at hhere
        obtain ⟨t, o⟩ := x
        obtain ⟨ls, hls, hfollows⟩ := exists_follows_of_place hhere.2 more
        have hline : (lines.lineOf o).1 = line := congrArg Prod.fst hhere.1
        have hopens : (line != above) = true := by
          rw [bne_iff_ne]
          omega
        have hposition : lines.position o true = ⟨line, o - offset + 1, indent, true⟩ := by
          simp [LineMap.position, hhere.1, indent_row, hc]
        rw [List.cons_append, place, hline, hls, hopens, hposition, ← htokens, List.map_cons]
        rw [indent_row offset indent hc] at hfollows
        exact .cons _ hfollows hrows

/-- Scanning a text with a layout gives back its tokens, each one on its line. -/
theorem exists_tokens_of_laidOut {source : String} {rows : List (Nat × List Token)} (h : LaidOut source.toList rows) :
    ∃ ls, tokens source = .ok ls ∧ Rows 1 rows ls := by
  obtain ⟨ts, hts, hrows⟩ := exists_rows_of_laidOut h (LineMap.ofString source) Nat.one_pos fun x i l hcovers => by
    rw [LineMap.lineOf_eq hcovers, Nat.add_comm]
  refine ⟨_, ?_, hrows⟩
  rw [tokens, hts]

end Scan

end Lamcode
