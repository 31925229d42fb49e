import Mathlib.Data.List.Forall2
import Lamcode.Proofs.Result
import Lamcode.Proofs.Source.Lines

/-!
# Lamcode.Proofs.Token.Tiling — scanning tiles the source

Which texts are tokens is said by `Scan.Spelled`, without regard to how they are found. A text is tiled where blanks,
comments and tokens lie side by side in it and no token could be longer (`Scan.Tiles`). The main statement,
`tokens_tiling`, says that scanning succeeds on the sources that can be tiled and finds the tokens of the tiling with
their positions, and that otherwise it tiles the source up to the character it reports.
-/

namespace Lamcode

namespace Scan

/-! ## Tokens and tilings -/

/-- The texts of the tokens. -/
inductive Spelled : List Char → Token → Prop
  | whereMark : Spelled ['w', 'h', 'e', 'r', 'e'] .whereMark
  | openParen : Spelled ['('] .openParen
  | closeParen : Spelled [')'] .closeParen
  | openBracket : Spelled ['['] .openBracket
  | closeBracket : Spelled [']'] .closeBracket
  | arrow : Spelled ['=', '>'] .arrow
  | equals : Spelled ['='] .equals
  | semicolon : Spelled [';'] .semicolon
  | comma : Spelled [','] .comma
  | dollar : Spelled ['$'] .dollar
  | natural {d : Char} {ds : List Char} (hd : d.isDigit = true) (hds : ∀ c ∈ ds, c.isDigit = true) :
    Spelled (d :: ds) (.number (Nat.ofDigitChars 10 (d :: ds) 0))
  | negative {d : Char} {ds : List Char} (hd : d.isDigit = true) (hds : ∀ c ∈ ds, c.isDigit = true) :
    Spelled ('-' :: d :: ds) (.number (-(Nat.ofDigitChars 10 (d :: ds) 0)))
  | name {c : Char} {cs : List Char} (hc : isNameStart c = true) (hcs : ∀ d ∈ cs, isNameChar d = true)
    (hwhere : String.ofList (c :: cs) ≠ "where") : Spelled (c :: cs) (.name (String.ofList (c :: cs)))

/-- No token goes on from the text into the text behind it. -/
def Maximal (text rest : List Char) : Prop :=
  ∀ more rest' t, rest = more ++ rest' → Spelled (text ++ more) t → more = []

/-- A token in a source: the text in front of it, and the text that starts with it. -/
structure Found where
  before : List Char
  token : Token
  after : List Char

/-- Between `before` and `rest`, `text` consists of blanks, comments and the tokens that are listed. -/
inductive Tiles : (before text rest : List Char) → List Found → Prop
  | nil {before rest : List Char} : Tiles before [] rest []
  | blank {before text rest : List Char} {fs : List Found} {c : Char} (hc : isSpace c = true)
    (h : Tiles (before ++ [c]) text rest fs) : Tiles before (c :: text) rest fs
  | comment {before cs text rest : List Char} {fs : List Found} (hcs : '\n' ∉ cs)
    (hend : ∀ d ∈ (text ++ rest).head?, d = '\n') (h : Tiles (before ++ '#' :: cs) text rest fs) :
    Tiles before ('#' :: cs ++ text) rest fs
  | token {before lexeme text rest : List Char} {fs : List Found} {t : Token} (hlexeme : Spelled lexeme t)
    (hmaximal : Maximal lexeme (text ++ rest)) (h : Tiles (before ++ lexeme) text rest fs) :
    Tiles before (lexeme ++ text) rest (⟨before, t, lexeme ++ text ++ rest⟩ :: fs)

/-- Neither a blank nor a comment nor a token starts the source. -/
structure Stuck (source : List Char) : Prop where
  blank : ∀ c ∈ source.head?, isSpace c = false ∧ c ≠ '#'
  token : ∀ text rest t, source = text ++ rest → ¬Spelled text t

/-! ## The piece that is taken off -/

/-- Where a token starts, there is one that cannot be longer. -/
theorem exists_maximal {text rest : List Char} {t : Token} (h : Spelled text t) :
    ∃ text' rest' t', text' ++ rest' = text ++ rest ∧ Spelled text' t' ∧ Maximal text' rest' := by
  induction hlength : rest.length using Nat.strongRecOn generalizing text rest t with
  | ind n ih =>
    subst hlength
    by_cases hmaximal : Maximal text rest
    · exact ⟨text, rest, t, rfl, h, hmaximal⟩
    · unfold Maximal at hmaximal
      push Not at hmaximal
      obtain ⟨more, rest', t', rfl, hlonger, hmore⟩ := hmaximal
      have hshorter : rest'.length < (more ++ rest').length := by
        have := List.length_pos_iff.2 hmore
        rw [List.length_append]
        omega
      obtain ⟨text'', rest'', t'', hsource, hspelled⟩ := ih _ hshorter hlonger rfl
      exact ⟨text'', rest'', t'', by rw [hsource, List.append_assoc], hspelled⟩

theorem digitsValue_eq (ds : List Char) : digitsValue ds = Nat.ofDigitChars 10 ds 0 := by
  rw [digitsValue, Nat.ofDigitChars_eq_foldl]
  simp only [Nat.mul_comm]

theorem spelled_ofName {c : Char} {cs : List Char} (hc : isNameStart c = true) (hcs : ∀ d ∈ cs, isNameChar d = true) :
    Spelled (c :: cs) (ofName (String.ofList (c :: cs))) := by
  by_cases hwhere : String.ofList (c :: cs) = "where"
  · have hlist : c :: cs = ['w', 'h', 'e', 'r', 'e'] := by
      rw [← String.toList_ofList (l := c :: cs), hwhere]
      rfl
    rw [hlist]
    exact .whereMark
  · have hname : ofName (String.ofList (c :: cs)) = .name (String.ofList (c :: cs)) := if_neg (by simpa using hwhere)
    rw [hname]
    exact .name hc hcs hwhere

/-- The text behind a maximal token does not go on with characters that could be added to it. -/
theorem Maximal.head {p : Char → Bool} {text rest : List Char} (h : Maximal text rest)
    (hlonger : ∀ c, p c = true → ∃ t, Spelled (text ++ [c]) t) : ∀ c ∈ rest.head?, p c = false := by
  intro c hc
  obtain ⟨rest', rfl⟩ := List.head?_eq_some_iff.1 hc
  rw [Bool.eq_false_iff]
  intro hp
  obtain ⟨t, ht⟩ := hlonger c hp
  exact List.cons_ne_nil _ _ (h [c] rest' t rfl ht)

theorem forall_mem_concat {p : Char → Bool} {cs : List Char} {c : Char} (hcs : ∀ d ∈ cs, p d = true) (hc : p c = true) :
    ∀ d ∈ cs ++ [c], p d = true := by
  intro d hd
  rcases List.mem_append.1 hd with hd | hd
  · exact hcs d hd
  · rwa [List.mem_singleton.1 hd]

theorem chunk_word {c : Char} {cs rest : List Char} (hc : isNameStart c = true) (hcs : ∀ d ∈ cs, isNameChar d = true)
    (hmaximal : Maximal (c :: cs) rest) :
    chunk c (cs ++ rest) = ⟨.token (ofName (String.ofList (c :: cs))), c :: cs, rest⟩ := by
  have hrest : ∀ d ∈ rest.head?, isNameChar d = false :=
    hmaximal.head fun d hd => ⟨_, spelled_ofName hc (forall_mem_concat hcs hd)⟩
  rw [chunk_name hc, span_eq hcs hrest]

/-- A maximal token is taken off. -/
theorem chunk_of_maximal {c : Char} {cs rest : List Char} {t : Token} (h : Spelled (c :: cs) t)
    (hmaximal : Maximal (c :: cs) rest) : chunk c (cs ++ rest) = ⟨.token t, c :: cs, rest⟩ := by
  cases h with
  | openParen | closeParen | openBracket | closeBracket | arrow | semicolon | comma | dollar => rfl
  | equals =>
    have hrest : ∀ d ∈ rest.head?, (d == '>') = false := hmaximal.head fun d hd => by
      obtain rfl := beq_iff_eq.1 hd
      exact ⟨_, .arrow⟩
    cases rest with
    | nil => rfl
    | cons d rest =>
      have hd : d ≠ '>' := beq_eq_false_iff_ne.1 (hrest d rfl)
      have hname : isNameStart '=' = false := rfl
      simp [chunk, isSpace, hname, mark?, Char.isDigit, hd]
  | natural hd hds =>
    have hrest : ∀ c ∈ rest.head?, c.isDigit = false :=
      hmaximal.head fun c hc => ⟨_, .natural hd (forall_mem_concat hds hc)⟩
    rw [chunk_digit hd, span_eq hds hrest, digitsValue_eq]
  | negative hd hds =>
    have hrest : ∀ c ∈ rest.head?, c.isDigit = false :=
      hmaximal.head fun c hc => ⟨_, .negative hd (forall_mem_concat hds hc)⟩
    rw [chunk_minus hd hds hrest, digitsValue_eq]
  | whereMark => exact chunk_word rfl (List.all_eq_true.1 rfl) hmaximal
  | name hc hcs hwhere =>
    rw [chunk_word hc hcs hmaximal, show ofName (String.ofList (c :: cs)) = .name (String.ofList (c :: cs)) from
      if_neg (by simpa using hwhere)]

theorem spelled_mark {c : Char} {t : Token} (h : mark? c = some t) : Spelled [c] t := by
  unfold mark? at h
  split at h <;> cases h
  · exact .openParen
  · exact .closeParen
  · exact .openBracket
  · exact .closeBracket
  · exact .semicolon
  · exact .comma
  · exact .dollar

/-- Where nothing starts, nothing is taken off. -/
theorem chunk_of_stuck {c : Char} {cs : List Char} (h : Stuck (c :: cs)) : (chunk c cs).kind = .neither := by
  obtain ⟨hspace, hcomment⟩ := h.blank c rfl
  have hone : ∀ t, ¬Spelled [c] t := fun t => h.token [c] cs t rfl
  have hdigit : ¬c.isDigit = true := fun hc => hone _ (.natural hc nofun)
  have hname : ¬isNameStart c = true := fun hc => hone _ (spelled_ofName hc nofun)
  unfold chunk
  rw [if_neg (Bool.eq_false_iff.1 hspace), if_neg (by simpa using hcomment), if_neg hdigit, if_neg hname]
  split
  · next t ht => exact absurd (spelled_mark ht) (hone t)
  · split
    · exact absurd .equals (hone _)
    · exact absurd .equals (hone _)
    · next d rest _ =>
      split
      · next hd => exact absurd (.negative hd nofun) (h.token ['-', d] rest _ rfl)
      · rfl
    · rfl

/-! ## Tilings are found -/

/-- What scanning notes of a token. -/
def Found.entry (f : Found) : Token × Nat :=
  (f.token, byteWidth f.before)

theorem tokensFrom_comment {cs rest : List Char} (hcs : '\n' ∉ cs) (hrest : ∀ d ∈ rest.head?, d = '\n') (offset : Nat) :
    tokensFrom offset ('#' :: (cs ++ rest)) = tokensFrom (offset + byteWidth ('#' :: cs)) rest := by
  have hend : ∀ d ∈ rest.head?, (d != '\n') = false := by
    intro d hd
    rw [hrest d hd]
    rfl
  have hchunk : chunk '#' (cs ++ rest) = ⟨.gap, '#' :: cs, rest⟩ := span_eq (ne_newline hcs) hend '#' fun _ => .gap
  rw [tokensFrom, hchunk]

/-- Text that is tiled is scanned into the tokens of the tiling. -/
theorem Tiles.tokensFrom {before text rest : List Char} {fs : List Found} (h : Tiles before text rest fs) :
    tokensFrom (byteWidth before) (text ++ rest) =
      (tokensFrom (byteWidth (before ++ text)) rest).map (fs.map Found.entry ++ ·) := by
  induction h with
  | nil =>
    rw [List.append_nil]
    exact (congrFun Except.map_id _).symm
  | blank hc h ih =>
    rw [List.cons_append, tokensFrom_space hc]
    rw [byteWidth_append] at ih
    rw [← List.append_cons] at ih
    exact ih
  | comment hcs hend h ih =>
    rw [List.cons_append, List.cons_append, List.append_assoc, tokensFrom_comment hcs hend, ← byteWidth_append, ih,
      List.append_assoc, List.cons_append]
  | @token before lexeme text rest fs t hlexeme hmaximal h ih =>
    obtain ⟨c, cs, rfl⟩ : ∃ c cs, lexeme = c :: cs := by cases hlexeme <;> exact ⟨_, _, rfl⟩
    rw [List.append_assoc, List.cons_append, tokensFrom_token (chunk_of_maximal hlexeme hmaximal), ← byteWidth_append,
      ih, List.append_assoc, List.cons_append]
    cases Scan.tokensFrom _ rest <;> rfl

theorem tokensFrom_of_stuck {c : Char} {cs : List Char} (h : Stuck (c :: cs)) (offset : Nat) :
    tokensFrom offset (c :: cs) = .error (offset, c) := by
  rw [tokensFrom, chunk_of_stuck h]

/-- Where something starts, a tile can be laid: a blank, a comment up to the end of its line, or a token. -/
theorem exists_tile {c : Char} {cs : List Char} (h : ¬Stuck (c :: cs)) :
    ∃ tile rest, c :: cs = tile ++ rest ∧ tile ≠ [] ∧ ∀ {before text rest' : List Char} {fs : List Found},
      rest = text ++ rest' → Tiles (before ++ tile) text rest' fs → ∃ fs', Tiles before (tile ++ text) rest' fs' := by
  by_cases hspace : isSpace c = true
  · exact ⟨[c], cs, rfl, List.cons_ne_nil _ _, fun _ htiles => ⟨_, .blank hspace htiles⟩⟩
  by_cases hcomment : c = '#'
  · subst hcomment
    refine ⟨'#' :: firstLine cs, cs.dropWhile (· != '\n'), ?_, List.cons_ne_nil _ _, ?_⟩
    · rw [firstLine, List.cons_append, List.takeWhile_append_dropWhile]
    · intro before text rest' fs hrest htiles
      refine ⟨_, .comment (newline_notMem (p := (· != '\n')) rfl fun d => List.mem_takeWhile_imp) ?_ htiles⟩
      intro d hd
      rw [← hrest] at hd
      have := List.head?_dropWhile_not (· != '\n') cs
      rw [hd] at this
      simpa using this
  · have htoken : ∃ lexeme rest t, c :: cs = lexeme ++ rest ∧ Spelled lexeme t := by
      by_contra hnone
      push Not at hnone
      refine h ⟨fun d hd => ?_, hnone⟩
      cases hd
      exact ⟨Bool.eq_false_iff.2 hspace, hcomment⟩
    obtain ⟨lexeme, rest, t, hsource, hlexeme⟩ := htoken
    obtain ⟨lexeme', rest', t', hsource', hlexeme', hmaximal⟩ := exists_maximal (t := t) hlexeme
    refine ⟨lexeme', rest', hsource.trans hsource'.symm, ?_, ?_⟩
    · cases hlexeme' <;> exact List.cons_ne_nil _ _
    · intro before text rest'' fs hrest htiles
      exact ⟨_, .token hlexeme' (hrest ▸ hmaximal) htiles⟩

/-- Every source is tiled to its end or up to a place where nothing starts. -/
theorem exists_tiles (before source : List Char) :
    ∃ text rest fs, source = text ++ rest ∧ Tiles before text rest fs ∧ (rest = [] ∨ Stuck rest) := by
  induction hlength : source.length using Nat.strongRecOn generalizing before source with
  | ind n ih =>
    subst hlength
    by_cases hend : source = [] ∨ Stuck source
    · exact ⟨[], source, [], rfl, .nil, hend⟩
    rw [not_or] at hend
    obtain ⟨c, cs, rfl⟩ := List.exists_cons_of_ne_nil hend.1
    obtain ⟨tile, rest, hsource, htile, hlay⟩ := exists_tile hend.2
    have hshorter : rest.length < (c :: cs).length := by
      have := List.length_pos_iff.2 htile
      rw [hsource, List.length_append]
      omega
    obtain ⟨text, rest', fs, hrest, htiles, hend'⟩ := ih _ hshorter (before ++ tile) rest rfl
    obtain ⟨fs', htiles'⟩ := hlay hrest htiles
    exact ⟨tile ++ text, rest', fs', by rw [hsource, hrest, List.append_assoc], htiles', hend'⟩

/-! ## Positions -/

/-- The position of a token. -/
def Found.position (f : Found) (opensLine : Bool) : Position :=
  LineMap.positionBetween f.before f.after opensLine

/-- The lexemes are the tokens that were found, with their positions; those that open a line have no other one in front
of them on their line. -/
structure Located (fs : List Found) (ls : List Lexeme) : Prop where
  lexemes : List.Forall₂ (fun f l => l = ⟨f.token, f.position l.pos.opensLine⟩) fs ls
  opens : ∀ xs l ys, ls = xs ++ l :: ys → (l.pos.opensLine = true ↔ ∀ l' ∈ xs, l'.pos.line ≠ l.pos.line)

/-- What is known of the tokens behind a tile. -/
theorem found_behind {before tile more : List Char} {fs : List Found}
    (h : ∀ f ∈ fs, f.before ++ f.after = before ++ tile ++ more ∧ before ++ tile <+: f.before) :
    ∀ f ∈ fs, f.before ++ f.after = before ++ (tile ++ more) ∧ before <+: f.before := by
  intro f hf
  obtain ⟨hsource, hbefore⟩ := h f hf
  exact ⟨by rw [hsource, List.append_assoc], (List.prefix_append _ _).trans hbefore⟩

/-- Each token is found in the same source, behind the tokens before it. -/
theorem Tiles.found {before text rest : List Char} {fs : List Found} (h : Tiles before text rest fs) :
    (∀ f ∈ fs, f.before ++ f.after = before ++ (text ++ rest) ∧ before <+: f.before) ∧
      fs.Pairwise fun f g => f.before <+: g.before := by
  induction h with
  | nil => exact ⟨nofun, .nil⟩
  | @blank before text rest fs c hc h ih =>
    rw [List.cons_append, ← List.singleton_append]
    exact ⟨found_behind ih.1, ih.2⟩
  | comment hcs hend h ih =>
    rw [List.append_assoc]
    exact ⟨found_behind ih.1, ih.2⟩
  | token hlexeme hmaximal h ih =>
    have hbehind := found_behind ih.1
    rw [List.append_assoc]
    refine ⟨List.forall_mem_cons.2 ⟨⟨rfl, List.prefix_rfl⟩, hbehind⟩, List.pairwise_cons.2 ⟨?_, ih.2⟩⟩
    exact fun f hf => (hbehind f hf).2

/-- The number of the line of a token. -/
def Found.line (f : Found) : Nat :=
  1 + f.before.count '\n'

theorem line_le_line {f g : Found} (h : f.before <+: g.before) : f.line ≤ g.line := by
  obtain ⟨more, hmore⟩ := h
  rw [Found.line, Found.line, ← hmore, List.count_append]
  omega

theorem place_cons {source : String} {f : Found} (h : source.toList = f.before ++ f.after) (above : Nat)
    (os : List (Token × Nat)) :
    place (LineMap.ofString source) above (f.entry :: os) =
      ⟨f.token, f.position (f.line != above)⟩ :: place (LineMap.ofString source) f.line os := by
  have hline : ((LineMap.ofString source).lineOf (byteWidth f.before)).1 = f.line :=
    congrArg Position.line (LineMap.position_eq h true)
  rw [Found.entry, place, hline, LineMap.position_eq h]
  rfl

theorem exists_line_eq {fs : List Found} {ls : List Lexeme}
    (h : List.Forall₂ (fun f l => l = ⟨f.token, f.position l.pos.opensLine⟩) fs ls) {l : Lexeme} (hl : l ∈ ls) :
    ∃ f ∈ fs, l.pos.line = f.line := by
  induction h with
  | nil => cases hl
  | @cons f l' fs ls hf h ih =>
    rcases List.mem_cons.1 hl with rfl | hl
    · refine ⟨f, List.mem_cons_self, ?_⟩
      rw [hf]
      rfl
    · obtain ⟨g, hg, hline⟩ := ih hl
      exact ⟨g, List.mem_cons_of_mem _ hg, hline⟩

/-- Tokens that are found behind a token on line `above` and not above it are placed. Such a token opens its line if
this is not the line `above`, and no other one is in front of it there. -/
theorem located_behind {source : String} {fs : List Found} (hsource : ∀ f ∈ fs, source.toList = f.before ++ f.after)
    (hsorted : fs.Pairwise fun f g => f.before <+: g.before) {above : Nat} (habove : ∀ f ∈ fs, above ≤ f.line) :
    List.Forall₂ (fun f l => l = ⟨f.token, f.position l.pos.opensLine⟩) fs
        (place (LineMap.ofString source) above (fs.map Found.entry)) ∧
      ∀ xs l ys, place (LineMap.ofString source) above (fs.map Found.entry) = xs ++ l :: ys →
        (l.pos.opensLine = true ↔ l.pos.line ≠ above ∧ ∀ l' ∈ xs, l'.pos.line ≠ l.pos.line) := by
  induction fs generalizing above with
  | nil => exact ⟨.nil, fun xs l ys h => by simp [place] at h⟩
  | cons f fs ih =>
    rw [List.forall_mem_cons] at hsource habove
    rw [List.pairwise_cons] at hsorted
    have hbelow : ∀ g ∈ fs, f.line ≤ g.line := fun g hg => line_le_line (hsorted.1 g hg)
    obtain ⟨hforall, hopens⟩ := ih hsource.2 hsorted.2 hbelow
    rw [List.map_cons, place_cons hsource.1]
    refine ⟨.cons rfl hforall, fun xs l ys hls => ?_⟩
    cases xs with
    | nil =>
      obtain ⟨rfl, -⟩ := List.cons.inj hls
      simp [Found.position, LineMap.positionBetween, Found.line]
    | cons x xs =>
      obtain ⟨rfl, htail⟩ := List.cons.inj hls
      replace hls : place (LineMap.ofString source) f.line (fs.map Found.entry) = xs ++ l :: ys := htail
      have hl : l ∈ place (LineMap.ofString source) f.line (fs.map Found.entry) := by
        rw [hls]
        exact List.mem_append_right _ List.mem_cons_self
      obtain ⟨g, hg, hline⟩ := exists_line_eq hforall hl
      have hfg := hbelow g hg
      rw [hopens xs l ys hls, List.forall_mem_cons, hline]
      show _ ↔ _ ∧ f.line ≠ g.line ∧ _
      -- A line that is not the one of the token before is below it, and so is not the one above either.
      refine ⟨fun h => ⟨?_, Ne.symm h.1, h.2⟩, fun h => ⟨Ne.symm h.2.1, h.2.2⟩⟩
      have := habove.1
      omega

theorem located_of_tiles {source : String} {fs : List Found} (h : Tiles [] source.toList [] fs) :
    Located fs (place (LineMap.ofString source) 0 (fs.map Found.entry)) := by
  obtain ⟨hfound, hsorted⟩ := h.found
  have hsource : ∀ f ∈ fs, source.toList = f.before ++ f.after := by
    intro f hf
    rw [(hfound f hf).1, List.nil_append, List.append_nil]
  obtain ⟨hforall, hopens⟩ := located_behind hsource hsorted fun f _ => Nat.zero_le _
  refine ⟨hforall, fun xs l ys hls => ?_⟩
  have hl : l ∈ place (LineMap.ofString source) 0 (fs.map Found.entry) := by
    rw [hls]
    exact List.mem_append_right _ List.mem_cons_self
  obtain ⟨f, -, hline⟩ := exists_line_eq hforall hl
  rw [hopens xs l ys hls, and_iff_right]
  rw [hline, Found.line]
  omega

/-! ## Sources -/

theorem tokens_of_tiles {source : String} {fs : List Found} (h : Tiles [] source.toList [] fs) :
    tokens source = .ok (place (LineMap.ofString source) 0 (fs.map Found.entry)) := by
  have hscan : Scan.tokensFrom 0 source.toList = .ok (fs.map Found.entry) := by
    have := h.tokensFrom
    rw [List.append_nil] at this
    refine this.trans ?_
    rw [Scan.tokensFrom]
    exact congrArg Except.ok (List.append_nil _)
  rw [tokens, hscan]

theorem tokens_of_stuck {source : String} {before rest : List Char} {c : Char} {fs : List Found}
    (hsource : source.toList = before ++ c :: rest) (h : Tiles [] before (c :: rest) fs) (hstuck : Stuck (c :: rest)) :
    tokens source = .error ⟨LineMap.positionBetween before (c :: rest) false, c⟩ := by
  have hscan : Scan.tokensFrom 0 source.toList = .error (byteWidth before, c) := by
    rw [hsource]
    refine h.tokensFrom.trans ?_
    rw [List.nil_append, tokensFrom_of_stuck hstuck]
    rfl
  rw [tokens, hscan]
  dsimp only
  rw [LineMap.position_eq hsource]

/-- Scanning succeeds just on the sources that can be tiled, and gives the tokens of the tiling with their positions.
Where it fails, the source is tiled up to the reported place, and nothing starts there. -/
theorem tokens_tiling (source : String) :
    ((∃ ls, tokens source = .ok ls) ↔ ∃ fs, Tiles [] source.toList [] fs) ∧
      (∀ ls fs, tokens source = .ok ls → Tiles [] source.toList [] fs → Located fs ls) ∧
      ∀ e, tokens source = .error e → ∃ before rest fs, source.toList = before ++ e.found :: rest ∧
        Tiles [] before (e.found :: rest) fs ∧ Stuck (e.found :: rest) ∧
        e.pos = LineMap.positionBetween before (e.found :: rest) false := by
  obtain ⟨text, rest, fs, hsource, htiles, hend⟩ := exists_tiles [] source.toList
  refine ⟨⟨?_, fun ⟨fs, h⟩ => ⟨_, tokens_of_tiles h⟩⟩, ?_, ?_⟩
  · rintro ⟨ls, hls⟩
    cases rest with
    | nil =>
      rw [List.append_nil] at hsource
      exact ⟨fs, hsource ▸ htiles⟩
    | cons c rest =>
      rw [tokens_of_stuck hsource htiles (hend.resolve_left (List.cons_ne_nil _ _))] at hls
      cases hls
  · intro ls fs' hls htiles'
    rw [tokens_of_tiles htiles'] at hls
    cases hls
    exact located_of_tiles htiles'
  · intro e he
    cases rest with
    | nil =>
      rw [List.append_nil] at hsource
      rw [tokens_of_tiles (hsource ▸ htiles)] at he
      cases he
    | cons c rest =>
      have hstuck := hend.resolve_left (List.cons_ne_nil _ _)
      rw [tokens_of_stuck hsource htiles hstuck] at he
      cases he
      exact ⟨text, rest, fs, hsource, htiles, hstuck, rfl⟩

/-- A name that goes on behind a keyword, signs and digits without blanks, a comment with a character of two bytes in
it, tabs, and a token on a line that it does not open. -/
def glued : String :=
  "wherever=>-12x # \u00e9 #\n\t where == [-3;"

/-- A sign without a digit, behind a line that can be scanned. -/
def unsigned : String :=
  "x = 1\n y -> 2"

theorem tokens_glued :
    (∃ ls fs, tokens glued = .ok ls ∧ ls.map Lexeme.token = [.name "wherever", .arrow, .number (-12), .name "x",
        .whereMark, .equals, .equals, .openBracket, .number (-3), .semicolon] ∧
      Tiles [] glued.toList [] fs ∧ Located fs ls) ∧
    ∃ before rest fs, tokens unsigned = .error ⟨⟨2, 4, 1, false⟩, '-'⟩ ∧
      unsigned.toList = before ++ '-' :: rest ∧ Tiles [] before ('-' :: rest) fs ∧ Stuck ('-' :: rest) := by
  constructor
  · have h : (tokens glued).toOption.any (fun ls =>
        decide (ls.map Lexeme.token = [.name "wherever", .arrow, .number (-12), .name "x",
          .whereMark, .equals, .equals, .openBracket, .number (-3), .semicolon])) = true := by decide +kernel
    obtain ⟨ls, hls, htokens⟩ := exists_ok_of_any h
    obtain ⟨fs, hfs⟩ := (tokens_tiling glued).1.1 ⟨ls, hls⟩
    exact ⟨ls, fs, hls, of_decide_eq_true htokens, hfs, (tokens_tiling glued).2.1 ls fs hls hfs⟩
  · have h : tokens unsigned = .error ⟨⟨2, 4, 1, false⟩, '-'⟩ := by decide +kernel
    obtain ⟨before, rest, fs, hsource, htiles, hstuck, -⟩ := (tokens_tiling unsigned).2.2 _ h
    exact ⟨before, rest, fs, h, hsource, htiles, hstuck⟩

end Scan

end Lamcode
