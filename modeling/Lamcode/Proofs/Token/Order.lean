import Lamcode.Proofs.Token.Tiling

/-!
# Lamcode.Proofs.Token.Order — the lines of scanned tokens

What layout relies on: tokens come in the order of their lines, those of one line have the same indent, and a token
opens its line just if no token before it is on that line.
-/

namespace Lamcode

namespace LineMap

/-- A position has the indent of its line. -/
theorem indent_position (m : LineMap) (offset : Nat) (opensLine : Bool) :
    (m.position offset opensLine).indent = m.indent (m.position offset opensLine).line := by
  obtain ⟨i, l, hlineOf, hcovers⟩ := m.covers_lineOf offset
  rw [position, hlineOf]
  exact (indent_of_covers hcovers).symm

end LineMap

namespace Scan

theorem indent_of_place {lines : LineMap} {above : Nat} {os : List (Token × Nat)} :
    ∀ l ∈ place lines above os, l.pos.indent = lines.indent l.pos.line := by
  induction os generalizing above with
  | nil => exact nofun
  | cons o os ih => exact List.forall_mem_cons.2 ⟨lines.indent_position _ _, ih⟩

variable {source : String} {ts : List Lexeme}

/-- Tokens on one line have the same indent. -/
theorem indent_eq_of_line_eq (h : tokens source = .ok ts) {a b : Lexeme} (ha : a ∈ ts) (hb : b ∈ ts)
    (hline : a.pos.line = b.pos.line) : a.pos.indent = b.pos.indent := by
  unfold tokens at h
  split at h
  · cases h
  · cases h
    rw [indent_of_place a ha, indent_of_place b hb, hline]

/-- A source is tiled to its end or up to a character at which nothing starts. -/
theorem tiles_or_stuck (source : String) :
    (∃ fs, Tiles [] source.toList [] fs) ∨ ∃ before c rest fs, source.toList = before ++ c :: rest ∧
      Tiles [] before (c :: rest) fs ∧ Stuck (c :: rest) := by
  obtain ⟨text, rest, fs, hsource, htiles, hend⟩ := exists_tiles [] source.toList
  rcases rest with _ | ⟨c, rest⟩
  · rw [List.append_nil] at hsource
    exact .inl ⟨fs, hsource ▸ htiles⟩
  · exact .inr ⟨text, c, rest, fs, hsource, htiles, hend.resolve_left (List.cons_ne_nil _ _)⟩

/-- Tokens that were scanned are those of a tiling. -/
theorem exists_tiles_of_tokens (h : tokens source = .ok ts) : ∃ fs, Tiles [] source.toList [] fs ∧ Located fs ts := by
  rcases tiles_or_stuck source with ⟨fs, htiles⟩ | ⟨before, c, rest, fs, hsource, htiles, hstuck⟩
  · cases (tokens_of_tiles htiles).symm.trans h
    exact ⟨fs, htiles, located_of_tiles htiles⟩
  · cases (tokens_of_stuck hsource htiles hstuck).symm.trans h

/-- Scanning that fails has tiled the source up to a place where nothing starts. -/
theorem exists_stuck_of_tokens {e : ScanError} (h : tokens source = .error e) :
    ∃ before rest fs, source.toList = before ++ e.found :: rest ∧ Tiles [] before (e.found :: rest) fs ∧
      Stuck (e.found :: rest) ∧ e.pos = LineMap.positionBetween before (e.found :: rest) false := by
  rcases tiles_or_stuck source with ⟨fs, htiles⟩ | ⟨before, c, rest, fs, hsource, htiles, hstuck⟩
  · cases (tokens_of_tiles htiles).symm.trans h
  · cases (tokens_of_stuck hsource htiles hstuck).symm.trans h
    exact ⟨before, rest, fs, hsource, htiles, hstuck, rfl⟩

theorem exists_located (h : tokens source = .ok ts) :
    ∃ fs, (fs.Pairwise fun f g : Found => f.before <+: g.before) ∧ Located fs ts := by
  obtain ⟨fs, htiles, hlocated⟩ := exists_tiles_of_tokens h
  exact ⟨fs, htiles.found.2, hlocated⟩

/-- Tokens come in the order of their lines. -/
theorem pairwise_line (h : tokens source = .ok ts) : ts.Pairwise fun a b => a.pos.line ≤ b.pos.line := by
  obtain ⟨fs, hsorted, hlocated, -⟩ := exists_located h
  clear h
  induction hlocated with
  | nil => exact .nil
  | @cons f l fs ls hl hforall ih =>
    rw [List.pairwise_cons] at hsorted ⊢
    refine ⟨fun l' hl' => ?_, ih hsorted.2⟩
    obtain ⟨g, hg, hline⟩ := exists_line_eq hforall hl'
    rw [hline, hl]
    exact line_le_line (hsorted.1 g hg)

/-- A token opens its line just if no token before it is on that line. -/
theorem opensLine_iff (h : tokens source = .ok ts) {xs ys : List Lexeme} {l : Lexeme} (hts : ts = xs ++ l :: ys) :
    l.pos.opensLine = true ↔ ∀ l' ∈ xs, l'.pos.line ≠ l.pos.line := by
  obtain ⟨fs, -, hlocated⟩ := exists_located h
  exact hlocated.opens xs l ys hts

end Scan

end Lamcode
