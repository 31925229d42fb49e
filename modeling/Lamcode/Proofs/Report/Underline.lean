import Lamcode.Proofs.Source.Names
import Lamcode.Report.Render

/-!
# Lamcode.Proofs.Report.Underline — carets stand under what a report is about

A rendered report shows a line of the source and below it a line with carets. The carets are placed by the column and
the width of a mark, which count bytes; the reader sees characters. `Underlines` says what the reader should see, and
`underlines_of_mark` that a mark on text with nothing but characters of one byte in front of it is shown so. The main
statement, `render_underlines`, is about the reports on a source: a character that starts nothing, a name that is not
resolved, and names that are assigned again.
-/

namespace Lamcode

/-! ## The line of a place -/

theorem newline_notMem_lastLine (before : List Char) : '\n' ∉ lastLine before := fun h =>
  absurd (List.mem_rtakeWhile_imp h) (by decide)

theorem newline_notMem_firstLine (after : List Char) : '\n' ∉ firstLine after := fun h =>
  absurd (List.mem_takeWhile_imp h) (by decide)

theorem firstLine_append {text : List Char} (h : '\n' ∉ text) (after : List Char) :
    firstLine (text ++ after) = text ++ firstLine after :=
  List.takeWhile_append_of_pos (ne_newline h)

/-- What is dropped from the end does not go past text that is kept. -/
theorem rdropWhile_append {p : Char → Bool} {text : List Char} (htext : text ≠ []) (hkept : ∀ c ∈ text, p c = false)
    (front back : List Char) : (front ++ (text ++ back)).rdropWhile p = front ++ (text ++ back.rdropWhile p) := by
  induction back using List.reverseRecOn with
  | nil =>
    rw [List.rdropWhile_nil, List.append_nil, List.rdropWhile_eq_self_iff]
    intro hne
    rw [List.getLast_append_of_ne_nil hne htext, hkept _ (List.getLast_mem htext)]
    decide
  | append_singleton back c ih =>
    rw [← List.append_assoc, ← List.append_assoc, List.rdropWhile_concat, List.rdropWhile_concat, List.append_assoc, ih]
    split
    · rfl
    · simp only [List.append_assoc]

theorem LineMap.lineText_eq {source : String} {before after : List Char} (h : source.toList = before ++ after) :
    (ofString source).lineText (1 + before.count '\n') =
      String.ofList ((lastLine before ++ firstLine after).rdropWhile (· == '\r')) := by
  obtain ⟨s, hcovers, -⟩ := exists_covers before after 0
  rw [← h] at hcovers
  have hline : (ofString source).line? (before.count '\n' + 1) = some _ := line?_of_covers hcovers
  rw [Nat.add_comm, lineText, hline]
  rfl

namespace Report

/-! ## What the reader sees -/

/-- What a printed line of the source shows in front of a place: the number of the line, a bar, and the line up to
there. -/
def lineFront (before : List Char) : List Char :=
  (Nat.repr (1 + before.count '\n')).toList ++ [' ', '|', ' '] ++ lastLine before

/-- What a printed line of the source shows behind a place: the line from there on, without the carriage returns at its
end. -/
def lineBack (after : List Char) : List Char :=
  (firstLine after).rdropWhile (· == '\r')

/-- Among the printed lines there is the line of the source with `text` on it, between `before` and `after`. Right below
it is a line with carets under the characters of `text` and nowhere else. -/
def Underlines (printed : String) (before text after : List Char) : Prop :=
  ∃ lower, [lineFront before ++ text ++ lineBack after, lower] <:+: printed.toList.splitOn '\n' ∧
    ∀ i, lower[i]? = some '^' ↔ (lineFront before).length ≤ i ∧ i < (lineFront before ++ text).length

/-! ## Printed lines -/

theorem infix_splitOn {upper lower : List Char} (hupper : '\n' ∉ upper) (hlower : '\n' ∉ lower)
    (above below : List Char) :
    [upper, lower] <:+: (above ++ '\n' :: (upper ++ '\n' :: (lower ++ '\n' :: below))).splitOn '\n' := by
  refine ⟨above.splitOn '\n', below.splitOn '\n', ?_⟩
  rw [List.splitOn_append_cons_self, List.splitOn_append_cons_self, List.splitOn_append_cons_self,
    List.splitOn_eq_singleton hupper, List.splitOn_eq_singleton hlower, List.append_assoc]
  rfl

theorem getElem?_carets {pad tail : List Char} (hpad : '^' ∉ pad) (htail : '^' ∉ tail) (n i : Nat) :
    (pad ++ List.replicate n '^' ++ tail)[i]? = some '^' ↔ pad.length ≤ i ∧ i < pad.length + n := by
  rw [List.append_assoc]
  rcases Nat.lt_or_ge i pad.length with hi | hi
  · rw [List.getElem?_append_left hi]
    refine ⟨fun h => absurd (List.mem_of_getElem? h) hpad, fun h => ?_⟩
    omega
  rw [List.getElem?_append_right hi]
  rcases Nat.lt_or_ge (i - pad.length) n with hn | hn
  · rw [List.getElem?_append_left (by rwa [List.length_replicate]), List.getElem?_replicate, if_pos hn]
    refine ⟨fun _ => ?_, fun _ => rfl⟩
    omega
  · rw [List.getElem?_append_right (by rwa [List.length_replicate])]
    refine ⟨fun h => absurd (List.mem_of_getElem? h) htail, fun h => ?_⟩
    omega

@[simp] theorem paint_false (style text : String) : paint false style text = text := rfl

@[simp] theorem toList_spaces (n : Nat) : (spaces n).toList = List.replicate n ' ' :=
  String.toList_ofList

/-- What stands under the number of a line. -/
def gutter (m : Mark) : List Char :=
  List.replicate (Nat.repr m.pos.line).length ' ' ++ [' ', '|']

/-- The line of a mark. -/
def upperLine (source : String) (m : Mark) : List Char :=
  (Nat.repr m.pos.line).toList ++ [' ', '|', ' '] ++ ((LineMap.ofString source).lineText m.pos.line).toList

/-- What is said about a mark, right of the carets. -/
def caption (m : Mark) : List Char :=
  if m.message.isEmpty then [] else ' ' :: m.message.toList

/-- What stands left of the carets. -/
def pad (m : Mark) : List Char :=
  gutter m ++ ' ' :: List.replicate (m.pos.column - 1) ' '

/-- The line below that of a mark. -/
def lowerLine (m : Mark) : List Char :=
  pad m ++ List.replicate (max m.width 1) '^' ++ caption m

theorem mem_pad {m : Mark} {c : Char} (h : c ∈ pad m) : c = ' ' ∨ c = '|' := by
  simp only [pad, gutter, List.mem_append, List.mem_cons, List.mem_replicate, List.not_mem_nil, or_false] at h
  rcases h with (⟨-, h⟩ | h | h) | h | ⟨-, h⟩
  · exact .inl h
  · exact .inl h
  · exact .inr h
  · exact .inl h
  · exact .inl h

theorem mem_caption {m : Mark} {c : Char} (h : c ∈ caption m) : c = ' ' ∨ c ∈ m.message.toList := by
  unfold caption at h
  split at h
  · cases h
  · exact List.mem_cons.1 h

theorem toList_carets (m : Mark) :
    (carets false m).toList =
      List.replicate (m.pos.column - 1) ' ' ++ List.replicate (max m.width 1) '^' ++ caption m := by
  unfold carets caption
  split <;> simp

theorem toList_excerpt (source : String) (m : Mark) :
    (excerpt false source m).toList =
      gutter m ++ '\n' :: (upperLine source m ++ '\n' :: (lowerLine m ++ '\n' :: (gutter m ++ ['\n']))) := by
  unfold excerpt upperLine lowerLine pad gutter
  extract_lets number margin bar
  have hnumber : m.pos.line.repr = number := rfl
  have hmargin : margin.toList = List.replicate number.length ' ' := toList_spaces _
  have hbar : bar.toList = ['|'] := congrArg String.toList (paint_false _ _)
  simp only [hnumber, paint_false, String.toList_append, hmargin, hbar, toList_carets, String.reduceToList,
    List.append_assoc, List.cons_append, List.nil_append]

theorem exists_render {r : Report} {m : Mark} (hmark : r.marks.find? (·.isPrimary) = some m) (source : String) :
    ∃ above below, ((r.withSource source).render false).toList =
      above ++ '\n' :: (upperLine source m ++ '\n' :: (lowerLine m ++ '\n' :: below)) := by
  obtain ⟨place, hlocation⟩ : ∃ place, location false (r.withSource source) = place ++ excerpt false source m := by
    simp only [location, withSource, hmark]
    exact ⟨_, rfl⟩
  refine ⟨(headline false (r.withSource source)).toList ++ (place.toList ++ gutter m),
    gutter m ++ '\n' :: (String.join ((r.withSource source).remarks.map (remark false))).toList, ?_⟩
  simp only [render, hlocation, String.toList_append, toList_excerpt, List.append_assoc, List.cons_append,
    List.nil_append]

/-! ## Marks -/

/-- The line of text that is on one line and does not end in a carriage return. -/
theorem upperLine_eq {source : String} {before text after : List Char}
    (hsource : source.toList = before ++ (text ++ after)) (htext : text ≠ [])
    (hline : ∀ c ∈ text, c ≠ '\n' ∧ c ≠ '\r') {m : Mark} (hnumber : m.pos.line = 1 + before.count '\n') :
    upperLine source m = lineFront before ++ text ++ lineBack after := by
  have hnewline : '\n' ∉ text := fun h => (hline _ h).1 rfl
  have hreturn : ∀ c ∈ text, (c == '\r') = false := fun c hc => beq_eq_false_iff_ne.2 (hline c hc).2
  rw [upperLine, hnumber, LineMap.lineText_eq hsource, String.toList_ofList, firstLine_append hnewline,
    rdropWhile_append htext hreturn, lineFront, lineBack]
  simp only [List.append_assoc]

theorem newline_notMem_upperLine {source : String} {before text after : List Char} {m : Mark}
    (hline : ∀ c ∈ text, c ≠ '\n' ∧ c ≠ '\r') (h : upperLine source m = lineFront before ++ text ++ lineBack after) :
    '\n' ∉ upperLine source m := by
  have hdigits : '\n' ∉ (Nat.repr (1 + before.count '\n')).toList := by
    rw [Nat.toList_repr]
    intro hmem
    exact absurd (Nat.isDigit_of_mem_toDigits (by decide) (by decide) hmem) (by decide)
  have hback : '\n' ∉ lineBack after := fun hmem =>
    newline_notMem_firstLine after ((List.rdropWhile_prefix _ _).subset hmem)
  have htext : '\n' ∉ text := fun hmem => (hline _ hmem).1 rfl
  rw [h, lineFront]
  simp only [List.mem_append, not_or]
  exact ⟨⟨⟨⟨hdigits, by decide⟩, newline_notMem_lastLine before⟩, htext⟩, hback⟩

theorem newline_notMem_lowerLine {m : Mark} (hmessage : '\n' ∉ m.message.toList) : '\n' ∉ lowerLine m := by
  intro h
  rcases List.mem_append.1 h with h | h
  · rcases List.mem_append.1 h with h | h
    · exact absurd (mem_pad h) (by decide)
    · exact absurd (List.eq_of_mem_replicate h) (by decide)
  · exact (mem_caption h).elim (by decide) hmessage

/-- A mark on text that is on one line, with only characters of one byte in front of it there, is shown with carets
under the text. -/
theorem underlines_of_mark {r : Report} {m : Mark} (hmark : r.marks.find? (·.isPrimary) = some m) {source : String}
    {before text after : List Char} (hsource : source.toList = before ++ (text ++ after)) {opensLine : Bool}
    (hpos : m.pos = LineMap.positionBetween before (text ++ after) opensLine) (hplain : Plain before)
    (htext : text ≠ []) (hline : ∀ c ∈ text, c ≠ '\n' ∧ c ≠ '\r') (hwidth : m.width = text.length)
    (hmessage : '\n' ∉ m.message.toList ∧ '^' ∉ m.message.toList) :
    Underlines ((r.withSource source).render false) before text after := by
  have hnumber : m.pos.line = 1 + before.count '\n' := by rw [hpos]; rfl
  have hcolumn : m.pos.column - 1 = (lastLine before).length := by
    rw [hpos, ← byteWidth_eq_length hplain]
    exact Nat.add_sub_cancel_left _ _
  have hupper := upperLine_eq hsource htext hline hnumber
  obtain ⟨above, below, hrender⟩ := exists_render hmark source
  refine ⟨lowerLine m, ?_, fun i => ?_⟩
  · rw [hrender, ← hupper]
    exact infix_splitOn (newline_notMem_upperLine hline hupper) (newline_notMem_lowerLine hmessage.1) above below
  · -- Under the number of the line there are as many spaces as it has digits, so both lines start alike.
    have hpad : '^' ∉ pad m := fun h => absurd (mem_pad h) (by decide)
    have hcaption : '^' ∉ caption m := fun h => (mem_caption h).elim (by decide) hmessage.2
    have hlength : (pad m).length = (lineFront before).length := by
      simp only [pad, gutter, lineFront, hcolumn, hnumber, List.length_append, List.length_cons, List.length_nil,
        List.length_replicate, String.length_toList]
      omega
    have hpositive : 0 < text.length := List.length_pos_iff.2 htext
    rw [lowerLine, getElem?_carets hpad hcaption, hlength, hwidth, List.length_append, Nat.max_eq_left hpositive]

/-- A mark on a name of the source is shown with carets under the name. -/
theorem underlines_of_name {r : Report} {source x message : String} {pos : Position} {before after : List Char}
    (hmark : r.marks.find? (·.isPrimary) = some ⟨pos, x.utf8ByteSize, message, true⟩)
    (hname : Scan.NameAt source x pos before after) (hmessage : '\n' ∉ message.toList ∧ '^' ∉ message.toList) :
    Underlines ((r.withSource source).render false) before x.toList after := by
  have hnarrow := hname.spelled.narrow
  have hwidth : x.utf8ByteSize = x.toList.length := by
    rw [← byteWidth_eq_length fun c hc => (hnarrow c hc).1, ← utf8ByteSize_ofList, String.ofList_toList]
  exact underlines_of_mark hmark hname.source_eq hname.pos_eq hname.plain hname.spelled.ne_nil
    (fun c hc => (hnarrow c hc).2) hwidth hmessage

end Report

/-! ## Assignments that are repeated -/

/-- The assignments to a name that is among `earlier` or that an assignment in front of them has. -/
def Assignment.repeated (earlier : List String) : List (Assignment Site Header) → List (Assignment Site Header)
  | [] => []
  | a :: rest =>
    if a.name ∈ earlier then a :: repeated (a.name :: earlier) rest else repeated (a.name :: earlier) rest

/-- The top-level assignments to a name that has been assigned before. -/
def Program.repeated (p : Program) : List (Assignment Site Header) :=
  Assignment.repeated [] p.assignments

theorem Assignment.repeated_sublist (earlier : List String) (as : List (Assignment Site Header)) :
    (repeated earlier as).Sublist as := by
  induction as generalizing earlier with
  | nil => exact .slnil
  | cons a rest ih =>
    rw [repeated]
    split
    · exact (ih _).cons_cons a
    · exact (ih _).cons a

namespace Report

/-- The warning for an assignment, where the first one to its name is at `first`. -/
def ofRepeated (a : Assignment Site Header) (first : Position) : Report :=
  (warning ("'" ++ a.name ++ "' is assigned more than once")).withCode "FNT-W001"
    |>.withMark a.mark.pos a.name.utf8ByteSize "reassigned here"
    |>.withSecondaryMark first ("first assigned at " ++ first.text)

/-- There is one warning for each assignment that is repeated, in order. -/
theorem forall₂_reassignedAfter {seen : List (String × Position)} {earlier : List String}
    (h : ∀ x, (seen.lookup x).isSome = true ↔ x ∈ earlier) (as : List (Assignment Site Header)) :
    List.Forall₂ (fun a r => ∃ first, r = ofRepeated a first) (Assignment.repeated earlier as)
      (reassignedAfter seen as) := by
  induction as generalizing seen earlier with
  | nil => exact .nil
  | cons a rest ih =>
    rw [reassignedAfter, Assignment.repeated]
    have ha := h a.name
    cases hlookup : seen.lookup a.name with
    | none =>
      -- The first assignment to a name is kept, and later ones to the same name are not: `seen` has the names of
      -- `earlier` once each.
      rw [hlookup] at ha
      rw [if_neg (fun hmem => by cases ha.2 hmem)]
      refine ih fun x => ?_
      rw [List.lookup_append, Option.isSome_or, Bool.or_eq_true, h x, List.mem_cons, or_comm]
      refine or_congr_left ?_
      by_cases hx : x = a.name
      · simp [hx]
      · have hne : (x == a.name) = false := beq_eq_false_iff_ne.2 hx
        simp [List.lookup_cons, hne, hx]
    | some first =>
      rw [hlookup] at ha
      have hmem := ha.1 rfl
      rw [if_pos hmem]
      refine .cons ⟨first, rfl⟩ (ih fun x => ?_)
      rw [h x, List.mem_cons]
      exact ⟨.inr, fun hx => hx.elim (fun hx => hx ▸ hmem) id⟩

/-! ## Sources -/

/-- Reports underline what they are about. Where a source cannot be scanned, this is the character at which nothing
starts; where a name is not resolved, it is that name, at the first free variable of the program; and where names are
assigned again, there is one warning for each such assignment, and it is the name that is assigned. -/
theorem render_underlines (source : String) :
    (∀ e, Scan.tokens source = .error e → ∃ before after fs, source.toList = before ++ e.found :: after ∧
      Scan.Tiles [] before (e.found :: after) fs ∧ Scan.Stuck (e.found :: after) ∧
      Underlines (((Failure.scan e).report.withSource source).render false) before [e.found] after) ∧
    (∀ o x pos, Compile.source source o = .error (.compile (.emit (.unresolved x pos))) →
      ∃ p site before after, Program.parse source = .ok p ∧ p.free.head? = some (site, x) ∧ site.pos = pos ∧
        Scan.NameAt source x pos before after ∧
        Underlines (((Failure.compile (.emit (.unresolved x pos))).report.withSource source).render false) before
          x.toList after) ∧
    ∀ p, Program.parse source = .ok p → List.Forall₂ (fun a r => ∃ before after,
        Scan.NameAt source a.name a.mark.pos before after ∧
        Underlines ((r.withSource source).render false) before a.name.toList after)
      p.repeated (reassigned p) := by
  refine ⟨fun e he => ?_, fun o x pos h => ?_, fun p hp => ?_⟩
  · obtain ⟨before, rest, fs, hsource, htiles, hstuck, hpos⟩ := Scan.exists_stuck_of_tokens he
    have hspace := (hstuck.blank _ rfl).1
    have hline : ∀ c ∈ [e.found], c ≠ '\n' ∧ c ≠ '\r' := by
      rw [List.forall_mem_singleton]
      -- Both are blanks, and nothing starts with the character that was found.
      constructor <;> intro hc <;> rw [hc] at hspace <;> cases hspace
    have hmessage : '\n' ∉ "here".toList ∧ '^' ∉ "here".toList := by decide
    exact ⟨before, rest, fs, hsource, htiles, hstuck, underlines_of_mark rfl hsource hpos
      (htiles.plain_of_stuck hstuck) (List.cons_ne_nil _ _) hline rfl hmessage⟩
  · obtain ⟨p, site, hp, hfree, rfl⟩ := Compile.source_eq_unresolved_iff.1 h
    obtain ⟨before, after, hname⟩ := Program.exists_nameAt_of_free hp (List.mem_of_head? hfree)
    exact ⟨p, site, before, after, hp, hfree, rfl, hname, underlines_of_name rfl hname (by decide)⟩
  · have hmem : ∀ a ∈ p.repeated, a ∈ p.assignments := fun a ha => (Assignment.repeated_sublist _ _).subset ha
    have hreports : List.Forall₂ (fun a r => ∃ first, r = ofRepeated a first) p.repeated (reassigned p) :=
      forall₂_reassignedAfter (by simp) p.assignments
    refine ((List.forall₂_and_left _ _).2 ⟨hmem, hreports⟩).imp ?_
    rintro a r ⟨ha, first, rfl⟩
    obtain ⟨before, after, hname⟩ := Program.exists_nameAt_of_mem hp ha
    exact ⟨before, after, hname, underlines_of_name rfl hname (by decide)⟩

/-- A wide character that starts nothing, behind a tab and below a comment with another one. -/
def strayMark : String :=
  "x = 1 # \u00e9\r\n\ty = x \u00f7 x"

/-- A name that nothing binds, at the end of a line that ends in carriage returns. -/
def strayName : String :=
  "f = a => # \u00e9\n\t\tadd a bad_2\r\r\n"

/-- Two assignments to one name on one line. -/
def twice : String :=
  "# \u00e9\nx1 = 1;\t y = 2; x1 = y # \u00e9"

theorem render_stray :
    (∃ before after, Scan.tokens strayMark = .error ⟨⟨2, 8, 1, false⟩, '\u00f7'⟩ ∧
      strayMark.toList = before ++ '\u00f7' :: after ∧
      Underlines (((Failure.scan ⟨⟨2, 8, 1, false⟩, '\u00f7'⟩).report.withSource strayMark).render false) before
        ['\u00f7'] after) ∧
    (∃ before after, Compile.source strayName .standard =
        .error (.compile (.emit (.unresolved "bad_2" ⟨2, 9, 2, false⟩))) ∧
      strayName.toList = before ++ ("bad_2".toList ++ after) ∧
      Underlines (((Failure.compile (.emit (.unresolved "bad_2" ⟨2, 9, 2, false⟩))).report.withSource
        strayName).render false) before "bad_2".toList after) ∧
    ∃ p r before after, Program.parse twice = .ok p ∧ reassigned p = [r] ∧
      twice.toList = before ++ ("x1".toList ++ after) ∧
      Underlines ((r.withSource twice).render false) before "x1".toList after := by
  refine ⟨?_, ?_, ?_⟩
  · have h : Scan.tokens strayMark = .error ⟨⟨2, 8, 1, false⟩, '\u00f7'⟩ := by decide +kernel
    obtain ⟨before, after, -, hsource, -, -, hshown⟩ := (render_underlines strayMark).1 _ h
    exact ⟨before, after, h, hsource, hshown⟩
  · have h : (Program.parse strayName).toOption.any (fun p =>
        decide (p.free.head? = some (⟨3, 2, 9, 2, false⟩, "bad_2"))) = true := by decide +kernel
    obtain ⟨p, hp, hfree⟩ := exists_ok_of_any h
    have h : Compile.source strayName .standard = .error (.compile (.emit (.unresolved "bad_2" ⟨2, 9, 2, false⟩))) :=
      Compile.source_eq_unresolved_iff.2 ⟨p, _, hp, of_decide_eq_true hfree, rfl⟩
    obtain ⟨-, -, before, after, -, -, -, hname, hshown⟩ := (render_underlines strayName).2.1 _ _ _ h
    exact ⟨before, after, h, hname.source_eq, hshown⟩
  · have h : (Program.parse twice).toOption.any (fun p => decide (p.repeated.map Assignment.name = ["x1"])) = true := by
      decide +kernel
    obtain ⟨p, hp, hrepeated⟩ := exists_ok_of_any h
    obtain ⟨a, ha, hx⟩ := List.map_eq_singleton_iff.1 (of_decide_eq_true hrepeated)
    have hall := (render_underlines twice).2.2 p hp
    rw [ha, List.forall₂_cons_left_iff] at hall
    obtain ⟨r, rs, ⟨before, after, hname, hshown⟩, hrest, hreports⟩ := hall
    rw [List.forall₂_nil_left_iff.1 hrest] at hreports
    rw [hx] at hname hshown
    exact ⟨p, r, before, after, hp, hreports, hname.source_eq, hshown⟩

end Report

end Lamcode
