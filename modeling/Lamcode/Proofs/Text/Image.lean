import Lamcode.Image
import Lamcode.Proofs.Text.Numeral

/-!
# Lamcode.Proofs.Text.Image — what image text stands for

`Image.Spaced ps text` says that a text is made of the pieces `ps`, in this order, and of separators: no piece is empty
or holds a separator, and between two pieces there is at least one. Every text is spaced in exactly one way, and the
pieces are those that `Image.parse` reads. So it is known of every text what is read from it: the words, if
each piece is a numeral; else the first piece that is none, with the number of pieces in front of it.
-/

namespace Lamcode.Image

open Text.Numeral

/-! ## Pieces and separators -/

/-- The text is made of the pieces, in order, with separators around and between them. -/
inductive Spaced : List (List Char) → List Char → Prop
  | gap {gap : List Char} : (∀ c ∈ gap, isSeparator c = true) → Spaced [] gap
  | piece (gap piece : List Char) {rest : List Char} {ps : List (List Char)} : (∀ c ∈ gap, isSeparator c = true) →
    piece ≠ [] → (∀ c ∈ piece, isSeparator c = false) → (∀ c ∈ rest.head?, isSeparator c = true) → Spaced ps rest →
    Spaced (piece :: ps) (gap ++ (piece ++ rest))

/-- One more separator in front of a text belongs to no piece. -/
theorem Spaced.separator {ps : List (List Char)} {cs : List Char} (h : Spaced ps cs) {c : Char}
    (hc : isSeparator c = true) : Spaced ps (c :: cs) := by
  cases h with
  | gap hgap => exact .gap (List.forall_mem_cons.2 ⟨hc, hgap⟩)
  | piece gap piece hgap hne hpiece hrest hps =>
    exact .piece (c :: gap) piece (List.forall_mem_cons.2 ⟨hc, hgap⟩) hne hpiece hrest hps

theorem pieces_gap {gap : List Char} (hgap : ∀ c ∈ gap, isSeparator c = true) (cs : List Char) :
    pieces (gap ++ cs) = pieces cs := by
  induction gap with
  | nil => rfl
  | cons c gap ih =>
    rw [List.forall_mem_cons] at hgap
    rw [List.cons_append, pieces, if_pos hgap.1]
    exact ih hgap.2

/-- A piece goes on up to the next separator and no further. -/
theorem pieces_piece {piece rest : List Char} (hne : piece ≠ []) (hpiece : ∀ c ∈ piece, isSeparator c = false)
    (hrest : ∀ c ∈ rest.head?, isSeparator c = true) : pieces (piece ++ rest) = piece :: pieces rest := by
  cases piece with
  | nil => exact absurd rfl hne
  | cons c cs =>
    rw [List.forall_mem_cons] at hpiece
    have hcs : ∀ d ∈ cs, (!isSeparator d) = true := fun d hd => by rw [hpiece.2 d hd]; rfl
    have htake : rest.takeWhile (!isSeparator ·) = [] := by
      cases rest with
      | nil => rfl
      | cons d ds => exact List.takeWhile_cons_of_neg (by simp [hrest d rfl])
    have hdrop : rest.dropWhile (!isSeparator ·) = rest := by
      cases rest with
      | nil => rfl
      | cons d ds => exact List.dropWhile_cons_of_neg (by simp [hrest d rfl])
    rw [List.cons_append, pieces, hpiece.1, List.takeWhile_append_of_pos hcs, List.dropWhile_append_of_pos hcs,
      htake, hdrop, List.append_nil]
    rfl

/-- A text has one list of pieces only. -/
theorem Spaced.pieces_eq {ps : List (List Char)} {cs : List Char} (h : Spaced ps cs) : pieces cs = ps := by
  induction h with
  | @gap gap hgap =>
    rw [← List.append_nil gap, pieces_gap hgap, pieces]
  | piece _ _ hgap hne hpiece hrest _ ih =>
    rw [pieces_gap hgap, pieces_piece hne hpiece hrest, ih]

/-- Every text is made of its pieces and of separators. -/
theorem spaced_pieces (cs : List Char) : Spaced (pieces cs) cs := by
  induction cs using pieces.induct with
  | case1 =>
    rw [pieces]
    exact .gap nofun
  | case2 c rest hc ih =>
    rw [pieces, if_pos hc]
    exact ih.separator hc
  | case3 c rest hc ih =>
    rw [pieces, if_neg hc]
    -- no gap is in front of this piece, and it ends where the first separator is
    have hsplit : c :: rest = [] ++ (c :: rest.takeWhile (!isSeparator ·) ++ rest.dropWhile (!isSeparator ·)) := by
      rw [List.nil_append, List.cons_append, List.takeWhile_append_dropWhile]
    have hpiece : ∀ d ∈ c :: rest.takeWhile (!isSeparator ·), isSeparator d = false := by
      refine List.forall_mem_cons.2 ⟨by simpa using hc, fun d hd => ?_⟩
      simpa using List.all_eq_true.1 List.all_takeWhile d hd
    have hrest : ∀ d ∈ (rest.dropWhile (!isSeparator ·)).head?, isSeparator d = true := by
      intro d hd
      have hhead := List.head?_dropWhile_not (!isSeparator ·) rest
      rw [Option.mem_def.1 hd] at hhead
      simpa using hhead
    have hspaced := Spaced.piece [] _ nofun (List.cons_ne_nil _ _) hpiece hrest ih
    rwa [← hsplit] at hspaced

theorem spaced_iff {ps : List (List Char)} {cs : List Char} : Spaced ps cs ↔ pieces cs = ps :=
  ⟨Spaced.pieces_eq, fun h => h ▸ spaced_pieces cs⟩

/-- A text without pieces holds separators only. -/
theorem spaced_nil_iff {cs : List Char} : Spaced [] cs ↔ ∀ c ∈ cs, isSeparator c = true := by
  refine ⟨fun h => ?_, .gap⟩
  cases h with
  | gap hgap => exact hgap

/-! ## Reading pieces -/

/-- The decimal forms of words are read as these words. -/
theorem readPieces_write (index : Nat) (words : List Int) :
    readPieces index (words.map fun w => (write w).toList) = .ok words := by
  induction words generalizing index with
  | nil => rfl
  | cons w words ih =>
    rw [List.map_cons, readPieces, readChars?_write]
    simp only [ih]
    rfl

/-- Reading fails at the first piece that is no numeral, and nowhere else. -/
theorem readPieces_eq_error_iff {index : Nat} {ps : List (List Char)} {e : Error} :
    readPieces index ps = .error e ↔ ∃ front p back, ps = front ++ p :: back ∧ (∀ q ∈ front, IsNumeral q) ∧
      ¬IsNumeral p ∧ e = .badWord (index + front.length) (String.ofList p) := by
  induction ps generalizing index with
  | nil => simp [readPieces]
  | cons p ps ih =>
    rw [readPieces]
    cases hp : readChars? p with
    | none =>
      have hnot : ¬IsNumeral p := by simp [← isSome_readChars?_iff, hp]
      constructor
      · intro h
        exact ⟨[], p, ps, rfl, nofun, hnot, (Except.error.inj h).symm⟩
      · rintro ⟨front, p', back, heq, hfront, hnot', rfl⟩
        -- a piece that is no numeral has no other one in front of it
        cases front with
        | nil =>
          cases heq
          rfl
        | cons q front =>
          cases heq
          exact absurd (hfront p (by simp)) hnot
    | some w =>
      have hnumeral : IsNumeral p := by simp [← isSome_readChars?_iff, hp]
      have hmap : (readPieces (index + 1) ps).map (w :: ·) = .error e ↔ readPieces (index + 1) ps = .error e := by
        cases readPieces (index + 1) ps <;> simp [Except.map]
      rw [hmap, ih]
      constructor
      · rintro ⟨front, p', back, rfl, hfront, hnot, rfl⟩
        refine ⟨p :: front, p', back, rfl, List.forall_mem_cons.2 ⟨hnumeral, hfront⟩, hnot, ?_⟩
        rw [List.length_cons, Nat.add_assoc, Nat.add_comm 1]
      · rintro ⟨front, p', back, heq, hfront, hnot, rfl⟩
        cases front with
        | nil =>
          cases heq
          exact absurd hnumeral hnot
        | cons q front =>
          cases heq
          refine ⟨front, p', back, rfl, (List.forall_mem_cons.1 hfront).2, hnot, ?_⟩
          rw [List.length_cons, Nat.add_assoc, Nat.add_comm 1]

/-- What is read from a text, in terms of its pieces. -/
theorem parse_eq {text : String} {ps : List (List Char)} (h : Spaced ps text.toList) :
    parse text = if ps = [] then .error .empty else readPieces 0 ps := by
  rw [parse, h.pieces_eq]
  cases ps <;> rfl

/-! ## Writing words -/

theorem isSeparator_of_mem_write {n : Int} {c : Char} (h : c ∈ (write n).toList) : isSeparator c = false := by
  have hcomma : c ≠ ',' := by
    rintro rfl
    rcases toNat_of_mem_write h with h | h <;> revert h <;> decide
  simp [isSeparator, hcomma, isBlank_of_mem_write h]

/-- The rendered text is the decimal forms with one comma between two of them. -/
theorem spaced_render (words : List Int) :
    Spaced (words.map fun w => (write w).toList) (render words).toList := by
  induction words with
  | nil => exact .gap nofun
  | cons w words ih =>
    have hwrite := write_ne_nil w
    cases words with
    | nil =>
      have hnil : Spaced [] [] := .gap nofun
      have hspaced := Spaced.piece [] _ nofun hwrite (fun _ => isSeparator_of_mem_write) (by simp) hnil
      simpa [render] using hspaced
    | cons w' words =>
      have hcomma : Spaced _ (',' :: (render (w' :: words)).toList) := ih.separator rfl
      have hspaced := Spaced.piece [] _ nofun hwrite (fun _ => isSeparator_of_mem_write) (by simp; rfl) hcomma
      have hrender : (render (w :: w' :: words)).toList =
          (write w).toList ++ ',' :: (render (w' :: words)).toList := by
        simp [render, String.intercalate_cons_cons]
      rwa [List.nil_append, ← hrender] at hspaced

theorem parse_written {words : List Int} (hne : words ≠ []) {text : String}
    (h : Spaced (words.map fun w => (write w).toList) text.toList) : parse text = .ok words := by
  rw [parse_eq h, if_neg (by simpa using hne), readPieces_write]

/-- An image has at least one word. -/
theorem ne_nil_of_parse {text : String} {words : List Int} (h : parse text = .ok words) : words ≠ [] := by
  rintro rfl
  rw [parse_eq (spaced_pieces _)] at h
  cases hps : pieces text.toList with
  | nil =>
    rw [hps] at h
    cases h
  | cons p ps =>
    rw [hps, if_neg (List.cons_ne_nil _ _), readPieces] at h
    cases hp : readChars? p with
    | none =>
      rw [hp] at h
      cases h
    | some w =>
      rw [hp] at h
      cases hrest : readPieces (0 + 1) ps <;> simp only [hrest, Except.map] at h <;> cases h

/-! ## The format -/

/-- The piece is the first one of the text that is no numeral, and it has `index` pieces in front of it. -/
def FirstBad (text : String) (index : Nat) (piece : String) : Prop :=
  ∃ front p back, Spaced (front ++ p :: back) text.toList ∧ (∀ q ∈ front, IsNumeral q) ∧ ¬IsNumeral p ∧
    index = front.length ∧ piece = String.ofList p

theorem parse_eq_empty_iff (text : String) : parse text = .error .empty ↔ ∀ c ∈ text.toList, isSeparator c = true := by
  rw [parse_eq (spaced_pieces _), ← spaced_nil_iff, spaced_iff]
  by_cases hps : pieces text.toList = []
  · simp [hps]
  · rw [if_neg hps, readPieces_eq_error_iff]
    simp [hps]

theorem parse_eq_badWord_iff (text : String) (index : Nat) (piece : String) :
    parse text = .error (.badWord index piece) ↔ FirstBad text index piece := by
  rw [parse_eq (spaced_pieces _)]
  constructor
  · intro h
    by_cases hps : pieces text.toList = []
    · rw [if_pos hps] at h
      cases h
    · rw [if_neg hps, readPieces_eq_error_iff] at h
      obtain ⟨front, p, back, hpieces, hfront, hp, heq⟩ := h
      rw [Nat.zero_add] at heq
      cases heq
      exact ⟨front, p, back, spaced_iff.2 hpieces, hfront, hp, rfl, rfl⟩
  · rintro ⟨front, p, back, hspaced, hfront, hp, rfl, rfl⟩
    have hpieces := hspaced.pieces_eq
    rw [if_neg (by simp [hpieces]), readPieces_eq_error_iff]
    exact ⟨front, p, back, hpieces, hfront, hp, by rw [Nat.zero_add]⟩

/-- If some piece is no numeral, one of those is the first. -/
theorem exists_firstBad {text : String} {ps : List (List Char)} (h : Spaced ps text.toList)
    (hbad : ∃ p ∈ ps, ¬IsNumeral p) : ∃ index piece, FirstBad text index piece := by
  have hfind : (ps.find? fun p => !(readChars? p).isSome).isSome := by
    rw [List.find?_isSome]
    obtain ⟨p, hp, hnot⟩ := hbad
    exact ⟨p, hp, by simpa [← isSome_readChars?_iff] using hnot⟩
  obtain ⟨p, hp⟩ := Option.isSome_iff_exists.1 hfind
  obtain ⟨hnot, front, back, rfl, hfront⟩ := List.find?_eq_some_iff_append.1 hp
  refine ⟨front.length, String.ofList p, front, p, back, h, fun q hq => ?_, ?_, rfl, rfl⟩
  · rw [← isSome_readChars?_iff]
    simpa using hfront q hq
  · rw [← isSome_readChars?_iff]
    simpa using hnot

/-- The text format of images. Decimal forms are read back however they are spaced, rendered ones among them; a text is
refused for being empty if it holds separators only, and for a bad word if some piece is no numeral, of which it names the
first. -/
theorem parse_exact (text : String) :
    (∀ words : List Int, words ≠ [] → Spaced (words.map fun w => (write w).toList) text.toList →
        parse text = .ok words) ∧
      (∀ words : List Int, words ≠ [] → parse (render words) = .ok words) ∧
      (∀ words : List Int, parse text = .ok words → parse (render words) = .ok words) ∧
      (parse text = .error .empty ↔ ∀ c ∈ text.toList, isSeparator c = true) ∧
      ((∃ index piece, parse text = .error (.badWord index piece)) ↔
        ∃ ps, Spaced ps text.toList ∧ ∃ p ∈ ps, ¬IsNumeral p) ∧
      ∀ index piece, parse text = .error (.badWord index piece) ↔ FirstBad text index piece := by
  have hrender : ∀ words : List Int, words ≠ [] → parse (render words) = .ok words :=
    fun words hne => parse_written hne (spaced_render words)
  refine ⟨fun words hne h => parse_written hne h, hrender, fun words h => hrender words (ne_nil_of_parse h),
    parse_eq_empty_iff text, ?_, parse_eq_badWord_iff text⟩
  simp only [parse_eq_badWord_iff]
  constructor
  · rintro ⟨index, piece, front, p, back, hspaced, -, hp, -⟩
    exact ⟨_, hspaced, p, by simp, hp⟩
  · rintro ⟨ps, hspaced, hbad⟩
    exact exists_firstBad hspaced hbad

/-- The conditions on a piece, computed. -/
theorem Spaced.of_all (gap piece : List Char) {rest : List Char} {ps : List (List Char)}
    (h : (gap.all isSeparator && !piece.isEmpty && piece.all (!isSeparator ·) && rest.head?.all isSeparator) = true)
    (hrest : Spaced ps rest) : Spaced (piece :: ps) (gap ++ (piece ++ rest)) := by
  simp only [Bool.and_eq_true, List.all_eq_true, Bool.not_eq_true', List.isEmpty_eq_false_iff,
    Option.all_eq_true_iff_get] at h
  obtain ⟨⟨⟨hgap, hne⟩, hpiece⟩, hhead⟩ := h
  refine .piece gap piece hgap hne hpiece (fun c hc => ?_) hrest
  rw [← Option.get_of_mem (Option.isSome_iff_exists.2 ⟨c, hc⟩) hc]
  exact hhead _

/-- An em space and a comma before the first word, a line break between the two, and one bad word behind two good ones. -/
theorem parse_uneven :
    parse "\u2003,-12\r\n7 " = .ok [-12, 7] ∧ parse "+1_0,2,x3,,-" = .error (.badWord 2 "x3") := by
  have hnil : Spaced [] [] := .gap nofun
  constructor
  · refine (parse_exact _).1 [-12, 7] (by decide) ?_
    exact .of_all ['\u2003', ','] ['-', '1', '2'] (by decide)
      (.of_all ['\r', '\n'] ['7'] (by decide) (.gap (List.forall_mem_singleton.2 (by decide))))
  · refine ((parse_exact _).2.2.2.2.2 _ _).2 ⟨[['+', '1', '_', '0'], ['2']], ['x', '3'], [['-']], ?_, ?_, ?_, rfl, rfl⟩
    · exact .of_all [] _ (by decide)
        (.of_all [','] _ (by decide) (.of_all [','] _ (by decide) (.of_all [',', ','] _ (by decide) hnil)))
    · exact List.forall_mem_cons.2 ⟨.plus rfl, List.forall_mem_cons.2 ⟨.unsigned rfl, nofun⟩⟩
    · rw [← isSome_readChars?_iff]
      decide

end Lamcode.Image
