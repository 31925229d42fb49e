import Lamcode.Token.Scan

/-!
# Lamcode.Proofs.Token.Spelling — text that spells tokens

`Scan.Spells text ts` says that `text` is on one line and is scanned into the tokens `ts`, wherever in a source it
stands, as long as what follows does not go on with its last token. There is one rule for each kind of token, and one
for text behind text; the offsets at which the tokens start are kept only as far as they are needed to find the line
of a token.
-/

namespace Lamcode

@[simp] theorem byteWidth_append (cs ds : List Char) : byteWidth (cs ++ ds) = byteWidth cs + byteWidth ds := by
  induction cs with
  | nil => exact (Nat.zero_add _).symm
  | cons c cs ih => rw [List.cons_append, byteWidth, byteWidth, ih, Nat.add_assoc]

namespace Scan

/-! ## One piece at a time -/

/-- The text goes on with neither a name nor a number nor `=`. -/
def Delimits (cs : List Char) : Prop :=
  ∀ c ∈ cs.head?, isNameChar c = false ∧ c ≠ '>'

theorem delimits_cons {c : Char} (h : isNameChar c = false) (h' : c ≠ '>') (cs : List Char) : Delimits (c :: cs) := by
  intro d hd
  cases hd
  exact ⟨h, h'⟩

theorem tokensFrom_token {c : Char} {cs text rest : List Char} {t : Token} (h : chunk c cs = ⟨.token t, text, rest⟩)
    (offset : Nat) :
    tokensFrom offset (c :: cs) = (tokensFrom (offset + byteWidth text) rest).map ((t, offset) :: ·) := by
  rw [tokensFrom, h]

theorem chunk_space {c : Char} (hc : isSpace c = true) (cs : List Char) :
    chunk c cs = .span c cs isSpace fun _ => .gap := by
  unfold chunk
  exact if_pos hc

/-- A blank is passed over, alone or with those behind it. -/
theorem tokensFrom_space {c : Char} (hc : isSpace c = true) (offset : Nat) (cs : List Char) :
    tokensFrom offset (c :: cs) = tokensFrom (offset + c.utf8Size) cs := by
  have hgap (offset : Nat) {d : Char} (ds : List Char) (hd : isSpace d = true) : tokensFrom offset (d :: ds) =
      tokensFrom (offset + byteWidth (d :: ds.takeWhile isSpace)) (ds.dropWhile isSpace) := by
    rw [tokensFrom, chunk_space hd]
    rfl
  rw [hgap offset cs hc]
  cases cs with
  | nil => rfl
  | cons d ds =>
    by_cases hd : isSpace d = true
    · rw [hgap _ ds hd, List.takeWhile_cons_of_pos hd, List.dropWhile_cons_of_pos hd, byteWidth, Nat.add_assoc]
    · rw [List.takeWhile_cons_of_neg hd, List.dropWhile_cons_of_neg hd]
      rfl

theorem tokensFrom_spaces (n offset : Nat) (cs : List Char) :
    tokensFrom offset (List.replicate n ' ' ++ cs) = tokensFrom (offset + n) cs := by
  induction n generalizing offset with
  | zero => rfl
  | succ n ih =>
    rw [List.replicate_succ, List.cons_append, tokensFrom_space rfl, ih, Nat.add_assoc, Nat.add_comm n]
    rfl

/-! ## Spelling -/

/-- The text has no line feed in it and is scanned into the tokens, wherever it stands. -/
structure Spells (text : List Char) (ts : List Token) : Prop where
  oneLine : '\n' ∉ text
  scans : ∀ (offset : Nat) (rest : List Char), Delimits rest →
    ∃ os : List (Token × Nat), os.map Prod.fst = ts ∧
      (∀ x ∈ os, offset ≤ x.2 ∧ x.2 < offset + byteWidth text) ∧
      tokensFrom offset (text ++ rest) = (tokensFrom (offset + byteWidth text) rest).map (os ++ ·)

namespace Spells

theorem nil : Spells [] [] where
  oneLine := List.not_mem_nil
  scans offset rest _ := ⟨[], rfl, nofun, by cases h : tokensFrom offset rest <;> simp [byteWidth, h, Except.map]⟩

/-- A token that is scanned off the text in front of it. -/
theorem cons (c : Char) (cs : List Char) {text : List Char} {t : Token} {ts : List Token} (hline : '\n' ∉ c :: cs)
    (hchunk : ∀ rest, Delimits rest → chunk c (cs ++ (text ++ rest)) = ⟨.token t, c :: cs, text ++ rest⟩)
    (h : Spells text ts) : Spells (c :: cs ++ text) (t :: ts) where
  oneLine hmem := (List.mem_append.1 hmem).elim hline h.oneLine
  scans offset rest hrest := by
    obtain ⟨os, hos, hrange, hscan⟩ := h.scans (offset + byteWidth (c :: cs)) rest hrest
    have hpos := c.utf8Size_pos
    refine ⟨(t, offset) :: os, congrArg (t :: ·) hos, ?_, ?_⟩
    · rw [List.forall_mem_cons]
      refine ⟨⟨Nat.le_refl _, by simp only [byteWidth_append, byteWidth]; omega⟩, fun x hx => ?_⟩
      have := hrange x hx
      simp only [byteWidth_append] at *
      omega
    · rw [List.append_assoc, List.cons_append, tokensFrom_token (hchunk rest hrest), hscan, byteWidth_append,
        Nat.add_assoc]
      cases tokensFrom _ rest <;> rfl

/-- Text behind text that does not go on with its last token. -/
theorem append {a b : List Char} {ts us : List Token} (h : Spells a ts) (k : Spells b us)
    (hb : ∀ rest, Delimits rest → Delimits (b ++ rest)) : Spells (a ++ b) (ts ++ us) where
  oneLine hmem := (List.mem_append.1 hmem).elim h.oneLine k.oneLine
  scans offset rest hrest := by
    obtain ⟨os, hos, hrange, hscan⟩ := h.scans offset (b ++ rest) (hb rest hrest)
    obtain ⟨os', hos', hrange', hscan'⟩ := k.scans (offset + byteWidth a) rest hrest
    refine ⟨os ++ os', by rw [List.map_append, hos, hos'], fun x hx => ?_, ?_⟩
    · rw [byteWidth_append]
      rcases List.mem_append.1 hx with hx | hx
      · have := hrange x hx
        omega
      · have := hrange' x hx
        omega
    · rw [List.append_assoc, hscan, hscan', byteWidth_append, Nat.add_assoc]
      cases tokensFrom _ rest with
      | error e => rfl
      | ok ts => exact congrArg Except.ok (List.append_assoc ..).symm

theorem space {cs : List Char} {ts : List Token} (h : Spells cs ts) : Spells (' ' :: cs) ts where
  oneLine hmem := by
    rcases List.mem_cons.1 hmem with hmem | hmem
    · cases hmem
    · exact h.oneLine hmem
  scans offset rest hrest := by
    obtain ⟨os, hos, hrange, hscan⟩ := h.scans (offset + 1) rest hrest
    refine ⟨os, hos, fun x hx => ?_, ?_⟩
    · have := hrange x hx
      have hwidth : byteWidth (' ' :: cs) = 1 + byteWidth cs := rfl
      omega
    · rw [List.cons_append, tokensFrom_space rfl]
      exact hscan.trans (by rw [Nat.add_assoc]; rfl)

/-- A mark of one character ends by itself. -/
theorem mark (c : Char) {t : Token} (hc : mark? c = some t) {cs : List Char} {ts : List Token} (h : Spells cs ts) :
    Spells (c :: cs) (t :: ts) := by
  have hmark : ∀ rest, '\n' ∉ [c] ∧ chunk c rest = ⟨.token t, [c], rest⟩ := by
    intro rest
    unfold mark? at hc
    split at hc <;> cases hc <;> exact ⟨by decide, rfl⟩
  exact cons c [] (hmark []).1 (fun rest _ => (hmark _).2) h

theorem arrow : Spells ['=', '>'] [.arrow] :=
  cons '=' ['>'] (by decide) (fun _ _ => rfl) nil

theorem equals : Spells ['='] [.equals] := by
  refine cons '=' [] (by decide) (fun rest hrest => ?_) nil
  cases rest with
  | nil => rfl
  | cons c cs =>
    have hc := (hrest c rfl).2
    have hname : isNameStart '=' = false := rfl
    simp [chunk, isSpace, hname, mark?, Char.isDigit, hc]

end Spells

/-! ### Names -/

/-- A text that is scanned as a name. -/
def isIdentifier (text : String) : Bool :=
  match text.toList with
  | [] => false
  | c :: cs => isNameStart c && cs.all isNameChar && text != "where"

/-- Text that goes on while a test holds, as far as the text in front of a delimiter goes. -/
theorem span_eq {p : Char → Bool} {cs rest : List Char} (hcs : ∀ c ∈ cs, p c = true)
    (hrest : ∀ c ∈ rest.head?, p c = false) (c : Char) (kind : List Char → Kind) :
    Chunk.span c (cs ++ rest) p kind = ⟨kind (c :: cs), c :: cs, rest⟩ := by
  have htake : rest.takeWhile p = [] := by
    cases rest with
    | nil => rfl
    | cons d ds => exact List.takeWhile_cons_of_neg (by simp [hrest d rfl])
  have hdrop : rest.dropWhile p = rest := by
    cases rest with
    | nil => rfl
    | cons d ds => exact List.dropWhile_cons_of_neg (by simp [hrest d rfl])
  simp only [Chunk.span, List.takeWhile_append_of_pos hcs, List.dropWhile_append_of_pos hcs, htake, hdrop,
    List.append_nil]

theorem toNat_of_isNameStart {c : Char} (h : isNameStart c = true) :
    c.toNat = 95 ∨ 65 ≤ c.toNat ∧ c.toNat ≤ 90 ∨ 97 ≤ c.toNat ∧ c.toNat ≤ 122 := by
  delta isNameStart Char.isAlpha Char.isUpper Char.isLower at h
  simp only [Bool.or_eq_true, Bool.and_eq_true, decide_eq_true_eq, beq_iff_eq, ge_iff_le,
    UInt32.le_iff_toNat_le] at h
  rcases h with rfl | h | h
  · exact .inl rfl
  · exact .inr (.inl h)
  · exact .inr (.inr h)

/-- No blank and no comment starts with a character above those of them. -/
theorem gap_of_toNat {c : Char} (h : 36 ≤ c.toNat) : ¬isSpace c = true ∧ ¬(c == '#') = true := by
  constructor
  · intro hc
    simp only [isSpace, Bool.or_eq_true, beq_iff_eq] at hc
    rcases hc with (((rfl | rfl) | rfl) | rfl) | rfl <;> exact absurd h (by decide)
  · intro hc
    rw [beq_iff_eq] at hc
    subst hc
    exact absurd h (by decide)

theorem chunk_name {c : Char} (hc : isNameStart c = true) (cs : List Char) :
    chunk c cs = .span c cs isNameChar fun ds => .token (ofName (String.ofList ds)) := by
  have hnat := toNat_of_isNameStart hc
  obtain ⟨hspace, hcomment⟩ := gap_of_toNat (c := c) (by omega)
  have hdigit : ¬c.isDigit = true := by
    rw [Char.isDigit_iff_toNat]
    change ¬(48 ≤ c.toNat ∧ c.toNat ≤ 57)
    omega
  unfold chunk
  rw [if_neg hspace, if_neg hcomment, if_neg hdigit, if_pos hc]

theorem Delimits.name {rest : List Char} (h : Delimits rest) : ∀ c ∈ rest.head?, isNameChar c = false :=
  fun c hc => (h c hc).1

theorem Delimits.digit {rest : List Char} (h : Delimits rest) : ∀ c ∈ rest.head?, c.isDigit = false := by
  intro c hc
  have := (h c hc).1
  simp only [isNameChar, Char.isAlphanum, Bool.or_eq_false_iff] at this
  exact this.2.2

theorem newline_notMem {p : Char → Bool} (hp : p '\n' = false) {cs : List Char} (h : ∀ c ∈ cs, p c = true) :
    '\n' ∉ cs := by
  intro hmem
  have := h _ hmem
  rw [hp] at this
  cases this

theorem exists_identifier_eq_cons {text : String} (h : isIdentifier text = true) :
    ∃ c cs, text.toList = c :: cs ∧ isNameStart c = true ∧ (∀ d ∈ cs, isNameChar d = true) ∧ text ≠ "where" := by
  unfold isIdentifier at h
  cases hlist : text.toList with
  | nil =>
    rw [hlist] at h
    cases h
  | cons c cs =>
    rw [hlist] at h
    simp only [Bool.and_eq_true, List.all_eq_true, bne_iff_ne, ne_eq] at h
    obtain ⟨⟨hc, hcs⟩, hwhere⟩ := h
    exact ⟨c, cs, rfl, hc, hcs, hwhere⟩

theorem Spells.word {c : Char} {cs : List Char} (hc : isNameStart c = true) (hcs : ∀ d ∈ cs, isNameChar d = true) :
    Spells (c :: cs) [ofName (String.ofList (c :: cs))] := by
  have hfirst : isNameChar c = true := by
    simp only [isNameStart, isNameChar, Char.isAlphanum, Bool.or_eq_true] at hc ⊢
    exact hc.imp_right .inl
  have hline : '\n' ∉ c :: cs := newline_notMem (p := isNameChar) rfl (List.forall_mem_cons.2 ⟨hfirst, hcs⟩)
  have hspells : Spells (c :: cs ++ []) [ofName (String.ofList (c :: cs))] := by
    refine Spells.cons c cs hline (fun rest hrest => ?_) .nil
    rw [chunk_name hc, List.nil_append, span_eq hcs hrest.name]
  rwa [List.append_nil] at hspells

theorem Spells.name {text : String} (h : isIdentifier text = true) : Spells text.toList [.name text] := by
  obtain ⟨c, cs, hlist, hc, hcs, hwhere⟩ := exists_identifier_eq_cons h
  have htoken : ofName (String.ofList (c :: cs)) = .name text := by
    rw [← hlist, String.ofList_toList]
    exact if_neg (by simpa using hwhere)
  rw [hlist, ← htoken]
  exact .word hc hcs

theorem Spells.whereMark : Spells ['w', 'h', 'e', 'r', 'e'] [.whereMark] :=
  .word rfl (List.all_eq_true.1 rfl)

/-! ### Numbers -/

theorem chunk_digit {c : Char} (hc : c.isDigit = true) (cs : List Char) :
    chunk c cs = .span c cs Char.isDigit fun ds => .token (.number (digitsValue ds)) := by
  have hnat : 48 ≤ c.toNat ∧ c.toNat ≤ 57 := Char.isDigit_iff_toNat.1 hc
  obtain ⟨hspace, hcomment⟩ := gap_of_toNat (c := c) (by omega)
  unfold chunk
  rw [if_neg hspace, if_neg hcomment, if_pos hc]

theorem chunk_minus {d : Char} (hd : d.isDigit = true) {ds rest : List Char} (hds : ∀ c ∈ ds, c.isDigit = true)
    (hrest : ∀ c ∈ rest.head?, c.isDigit = false) :
    chunk '-' (d :: ds ++ rest) = ⟨.token (.number (-(digitsValue (d :: ds)))), '-' :: d :: ds, rest⟩ := by
  have hspan := span_eq hds hrest d fun ds => .token (.number (-(digitsValue ds)))
  simp only [Chunk.span, Chunk.mk.injEq] at hspan
  obtain ⟨-, htake, hdrop⟩ := hspan
  have hname : isNameStart '-' = false := rfl
  simp [chunk, isSpace, hname, mark?, hd, htake, hdrop]

theorem digitsValue_repr (n : Nat) : digitsValue n.repr.toList = n := by
  rw [Nat.toList_repr]
  refine Eq.trans ?_ (Nat.ofDigitChars_ten_toDigits (n := n))
  rw [digitsValue, Nat.ofDigitChars_eq_foldl]
  simp only [Nat.mul_comm]

/-- The digits of a number, taken apart. -/
theorem exists_repr_eq_cons (n : Nat) : ∃ d ds, n.repr.toList = d :: ds ∧ d.isDigit = true ∧
    ∀ c ∈ ds, c.isDigit = true := by
  have hall : ∀ c ∈ n.repr.toList, c.isDigit = true := by
    intro c hc
    rw [Nat.toList_repr] at hc
    exact Nat.isDigit_of_mem_toDigits (by decide) (by decide) hc
  cases hlist : n.repr.toList with
  | nil =>
    rw [Nat.toList_repr] at hlist
    exact absurd hlist Nat.toDigits_ne_nil
  | cons d ds =>
    rw [hlist, List.forall_mem_cons] at hall
    exact ⟨d, ds, rfl, hall⟩

theorem Spells.number (n : Int) : Spells (Text.Numeral.write n).toList [.number n] := by
  cases n with
  | ofNat n =>
    obtain ⟨d, ds, hlist, hd, hds⟩ := exists_repr_eq_cons n
    have hvalue : digitsValue (d :: ds) = n := hlist ▸ digitsValue_repr n
    have hline : '\n' ∉ d :: ds := newline_notMem (p := Char.isDigit) rfl (List.forall_mem_cons.2 ⟨hd, hds⟩)
    have hspells : Spells (d :: ds ++ []) [.number (Int.ofNat n)] := by
      refine Spells.cons d ds hline (fun rest hrest => ?_) .nil
      rw [chunk_digit hd, List.nil_append, span_eq hds hrest.digit, hvalue]
      rfl
    rwa [List.append_nil, ← hlist] at hspells
  | negSucc n =>
    obtain ⟨d, ds, hlist, hd, hds⟩ := exists_repr_eq_cons (n + 1)
    have hvalue : digitsValue (d :: ds) = n + 1 := hlist ▸ digitsValue_repr (n + 1)
    have hdigits : '\n' ∉ d :: ds := newline_notMem (p := Char.isDigit) rfl (List.forall_mem_cons.2 ⟨hd, hds⟩)
    have hline : '\n' ∉ '-' :: d :: ds := by simpa using hdigits
    have hspells : Spells ('-' :: d :: ds ++ []) [.number (Int.negSucc n)] := by
      refine Spells.cons '-' (d :: ds) hline (fun rest hrest => ?_) .nil
      rw [List.nil_append, chunk_minus hd hds hrest.digit, hvalue]
      rfl
    have hwrite : (Text.Numeral.write (Int.negSucc n)).toList = '-' :: d :: ds := by
      rw [Text.Numeral.write, String.toList_append, hlist]
      rfl
    rwa [List.append_nil, ← hwrite] at hspells

end Scan

end Lamcode
