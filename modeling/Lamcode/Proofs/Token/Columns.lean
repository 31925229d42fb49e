import Lamcode.Proofs.Token.Order

/-!
# Lamcode.Proofs.Token.Columns — columns count characters as well as bytes

The column of a position counts bytes, and what is printed below a line is placed by characters. Both are the same at
every token and at a character that starts none: blanks and tokens are written in characters of one byte, and a comment,
which may hold others, ends its line. `Tiles.legible` carries this through a tiling.
-/

namespace Lamcode

/-! ## Lines of characters that are one byte wide -/

theorem lastLine_append {more : List Char} (h : '\n' ∉ more) (before : List Char) :
    lastLine (before ++ more) = lastLine before ++ more := by
  unfold lastLine
  induction more using List.reverseRecOn with
  | nil => rw [List.append_nil, List.append_nil]
  | append_singleton more c ih =>
    rw [List.mem_append, List.mem_singleton, not_or] at h
    have hc : (c != '\n') = true := bne_iff_ne.2 (Ne.symm h.2)
    rw [← List.append_assoc, List.rtakeWhile_concat, if_pos hc, ih h.1, List.append_assoc]

theorem byteWidth_eq_length {cs : List Char} (h : ∀ c ∈ cs, c.utf8Size = 1) : byteWidth cs = cs.length := by
  induction cs with
  | nil => rfl
  | cons c cs ih =>
    rw [List.forall_mem_cons] at h
    rw [byteWidth, h.1, ih h.2, List.length_cons, Nat.add_comm]

theorem utf8ByteSize_ofList (cs : List Char) : (String.ofList cs).utf8ByteSize = byteWidth cs := by
  induction cs with
  | nil => rfl
  | cons c cs ih => rw [String.ofList_cons, String.utf8ByteSize_append, String.utf8ByteSize_singleton, ih, byteWidth]

/-- All characters of the last line are one byte wide. -/
def Plain (before : List Char) : Prop :=
  ∀ c ∈ lastLine before, c.utf8Size = 1

namespace Plain

theorem newline (before : List Char) : Plain (before ++ ['\n']) := by
  intro c hc
  rw [lastLine_below] at hc
  cases hc

theorem append {before more : List Char} (h : Plain before) (hmore : ∀ c ∈ more, c.utf8Size = 1 ∧ c ≠ '\n') :
    Plain (before ++ more) := by
  intro c hc
  have hline : '\n' ∉ more := fun hnewline => (hmore _ hnewline).2 rfl
  rw [lastLine_append hline, List.mem_append] at hc
  rcases hc with hc | hc
  · exact h c hc
  · exact (hmore c hc).1

end Plain

namespace Scan

/-! ## The characters of tokens and blanks -/

theorem utf8Size_eq_one {c : Char} (h : c.toNat ≤ 127) : c.utf8Size = 1 :=
  Char.utf8Size_eq_one_iff.2 (UInt32.le_iff_toNat_le.2 h)

theorem utf8Size_of_isSpace {c : Char} (h : isSpace c = true) : c.utf8Size = 1 := by
  simp only [isSpace, Bool.or_eq_true, beq_iff_eq] at h
  rcases h with (((rfl | rfl) | rfl) | rfl) | rfl <;> rfl

/-- The characters that tokens are written in. -/
def isInk (c : Char) : Bool :=
  decide (36 ≤ c.toNat) && decide (c.toNat ≤ 126)

theorem isInk_iff {c : Char} : isInk c = true ↔ 36 ≤ c.toNat ∧ c.toNat ≤ 126 := by
  rw [isInk, Bool.and_eq_true, decide_eq_true_iff, decide_eq_true_iff]

theorem isInk_of_isDigit {c : Char} (h : c.isDigit = true) : isInk c = true := by
  have hnat : 48 ≤ c.toNat ∧ c.toNat ≤ 57 := Char.isDigit_iff_toNat.1 h
  rw [isInk_iff]
  omega

theorem isInk_of_isNameStart {c : Char} (h : isNameStart c = true) : isInk c = true := by
  have hnat := toNat_of_isNameStart h
  rw [isInk_iff]
  omega

theorem isInk_of_isNameChar {c : Char} (h : isNameChar c = true) : isInk c = true := by
  rw [isNameChar, Char.isAlphanum, ← Bool.or_assoc, Bool.or_eq_true] at h
  rcases h with h | h
  · exact isInk_of_isNameStart h
  · exact isInk_of_isDigit h

theorem isInk_of_spelled {text : List Char} {t : Token} (h : Spelled text t) : ∀ c ∈ text, isInk c = true := by
  cases h with
  | whereMark | openParen | closeParen | openBracket | closeBracket | arrow | equals | semicolon | comma | dollar =>
    exact List.all_eq_true.1 rfl
  | natural hd hds =>
    exact List.forall_mem_cons.2 ⟨isInk_of_isDigit hd, fun c hc => isInk_of_isDigit (hds c hc)⟩
  | negative hd hds =>
    refine List.forall_mem_cons.2 ⟨rfl, List.forall_mem_cons.2 ⟨isInk_of_isDigit hd, fun c hc => ?_⟩⟩
    exact isInk_of_isDigit (hds c hc)
  | name hc hcs hwhere =>
    exact List.forall_mem_cons.2 ⟨isInk_of_isNameStart hc, fun c hc => isInk_of_isNameChar (hcs c hc)⟩

/-- Tokens are written in characters that are one byte wide and end no line. -/
theorem Spelled.narrow {text : List Char} {t : Token} (h : Spelled text t) :
    ∀ c ∈ text, c.utf8Size = 1 ∧ c ≠ '\n' ∧ c ≠ '\r' := by
  intro c hc
  have hink := isInk_of_spelled h c hc
  refine ⟨utf8Size_eq_one (Nat.le_succ_of_le (isInk_iff.1 hink).2), ?_, ?_⟩
  · rintro rfl
    cases hink
  · rintro rfl
    cases hink

theorem Spelled.ne_nil {text : List Char} {t : Token} (h : Spelled text t) : text ≠ [] := by
  cases h <;> exact List.cons_ne_nil _ _

/-! ## Tilings -/

/-- Bytes and characters count the same here, unless this is the end of a line. -/
def Ready (before after : List Char) : Prop :=
  Plain before ∨ ∀ c ∈ after.head?, c = '\n'

theorem Ready.plain {before after : List Char} {c : Char} (h : Ready before (c :: after)) (hc : c ≠ '\n') :
    Plain before :=
  h.resolve_right fun hend => hc (hend c rfl)

/-- A token that is there, behind characters that are all one byte wide on its line. -/
structure Found.Legible (f : Found) : Prop where
  plain : Plain f.before
  exists_spelled : ∃ lexeme more, Spelled lexeme f.token ∧ f.after = lexeme ++ more

theorem Tiles.legible {before text rest : List Char} {fs : List Found} (h : Tiles before text rest fs)
    (hready : Ready before (text ++ rest)) : (∀ f ∈ fs, f.Legible) ∧ Ready (before ++ text) rest := by
  induction h with
  | nil =>
    rw [List.append_nil]
    exact ⟨List.forall_mem_nil _, hready⟩
  | @blank before text rest fs c hc h ih =>
    have hplain : Plain (before ++ [c]) := by
      by_cases hnewline : c = '\n'
      · rw [hnewline]
        exact .newline before
      · exact (hready.plain hnewline).append (by simpa using ⟨utf8Size_of_isSpace hc, hnewline⟩)
    rw [List.append_cons]
    exact ih (.inl hplain)
  | @comment before cs text rest fs hcs hend h ih =>
    -- A comment may hold any characters, but only the end of its line can follow.
    rw [← List.append_assoc]
    exact ih (.inr hend)
  | @token before lexeme text rest fs t hlexeme hmaximal h ih =>
    have hplain : Plain before := by
      obtain ⟨c, cs, rfl⟩ := List.exists_cons_of_ne_nil hlexeme.ne_nil
      exact hready.plain (hlexeme.narrow c List.mem_cons_self).2.1
    have hnarrow : ∀ c ∈ lexeme, c.utf8Size = 1 ∧ c ≠ '\n' := fun c hc =>
      ⟨(hlexeme.narrow c hc).1, (hlexeme.narrow c hc).2.1⟩
    obtain ⟨hfs, hbehind⟩ := ih (.inl (hplain.append hnarrow))
    have hfound : (⟨before, t, lexeme ++ text ++ rest⟩ : Found).Legible :=
      ⟨hplain, lexeme, text ++ rest, hlexeme, List.append_assoc _ _ _⟩
    rw [← List.append_assoc]
    exact ⟨List.forall_mem_cons.2 ⟨hfound, hfs⟩, hbehind⟩

theorem ready_nil (after : List Char) : Ready [] after :=
  .inl (List.forall_mem_nil _)

/-- In front of a character that starts nothing, bytes and characters count the same. -/
theorem Tiles.plain_of_stuck {before rest : List Char} {c : Char} {fs : List Found} (h : Tiles [] before (c :: rest) fs)
    (hstuck : Stuck (c :: rest)) : Plain before := by
  have hc : c ≠ '\n' := by
    rintro rfl
    exact absurd (hstuck.blank _ rfl).1 (by decide)
  exact (h.legible (ready_nil _)).2.plain hc

/-! ## Names -/

/-- The name is a token of the source, at the position, between `before` and `after`. -/
structure NameAt (source x : String) (pos : Position) (before after : List Char) : Prop where
  source_eq : source.toList = before ++ (x.toList ++ after)
  token : ∃ fs, Tiles [] source.toList [] fs ∧ ⟨before, .name x, x.toList ++ after⟩ ∈ fs
  pos_eq : pos = LineMap.positionBetween before (x.toList ++ after) pos.opensLine

theorem Located.exists_found {fs : List Found} {ls : List Lexeme} (h : Located fs ls) {l : Lexeme} (hl : l ∈ ls) :
    ∃ f ∈ fs, l = ⟨f.token, f.position l.pos.opensLine⟩ := by
  obtain ⟨i, hi, rfl⟩ := List.getElem_of_mem hl
  have hlength := h.lexemes.length_eq
  exact ⟨fs[i], List.getElem_mem _, h.lexemes.get (by omega) hi⟩

theorem Spelled.toList_name {text : List Char} {x : String} (h : Spelled text (.name x)) : text = x.toList := by
  cases h
  rw [String.toList_ofList]

/-- A scanned name stands where its position says. -/
theorem exists_nameAt {source x : String} {ts : List Lexeme} {pos : Position} (h : tokens source = .ok ts)
    (hname : ⟨.name x, pos⟩ ∈ ts) : ∃ before after, NameAt source x pos before after := by
  obtain ⟨fs, htiles, hlocated⟩ := exists_tiles_of_tokens h
  obtain ⟨⟨before, t, after⟩, hf, hlexeme⟩ := hlocated.exists_found hname
  obtain ⟨rfl, hpos⟩ : Token.name x = t ∧ pos = _ := by simpa using hlexeme
  obtain ⟨-, text, more, hspelled, hafter⟩ := (htiles.legible (ready_nil _)).1 _ hf
  obtain rfl := hspelled.toList_name
  obtain rfl : after = x.toList ++ more := hafter
  refine ⟨before, more, ?_, ⟨fs, htiles, hf⟩, hpos⟩
  rw [(htiles.found.1 _ hf).1, List.nil_append, List.append_nil]

namespace NameAt

variable {source x : String} {pos : Position} {before after : List Char} (h : NameAt source x pos before after)
include h

/-- In front of a name, bytes and characters count the same. -/
theorem plain : Plain before := by
  obtain ⟨fs, htiles, hf⟩ := h.token
  exact ((htiles.legible (ready_nil _)).1 _ hf).plain

theorem spelled : Spelled x.toList (.name x) := by
  obtain ⟨fs, htiles, hf⟩ := h.token
  obtain ⟨text, more, hspelled, -⟩ := ((htiles.legible (ready_nil _)).1 _ hf).exists_spelled
  rwa [hspelled.toList_name] at hspelled

end NameAt

end Scan

end Lamcode
