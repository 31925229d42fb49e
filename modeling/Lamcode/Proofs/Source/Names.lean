import Lamcode.Proofs.Compile.Bound
import Lamcode.Proofs.Token.Columns
import Lamcode.Proofs.Tree.Landmarks
import Lamcode.Proofs.Tree.Margins

/-!
# Lamcode.Proofs.Source.Names — the names of a program stand in its source

A free variable of a program and a name that is assigned at its top level are landmarks of the trees that were read, so
each of them is a token of the source, at the position that its site has. Scoping adds scopes to the sites and keeps
the positions.
-/

namespace Lamcode

/-! ## Names are landmarks -/

namespace Expr

mutual

/-- Each free variable is a name in the expression that was read, at its position. -/
theorem landmark_of_free : ∀ (e : Expr Position) {s : Nat} {t : ScopeTable} {bound : List String} {u : Site × String},
    u ∈ (e.inScope s t).1.free bound → (.name u.2, u.1.pos) ∈ e.landmarks
  | .number _ _, _, _, _, _, h => by cases h
  | .var pos x, s, _, bound, u, h => by
    have h : u ∈ if x ∈ bound then [] else [((⟨s, pos⟩ : Site), x)] := h
    split at h
    · cases h
    · rw [List.mem_singleton.1 h]
      exact List.mem_singleton_self _
  | .tuple _ items, _, _, _, _, h => List.mem_cons_of_mem _ (landmark_of_freeOf items h)
  | .call _ f x, _, _, _, _, h => by
    rcases List.mem_append.1 h with h | h
    · exact List.mem_append_left _ (landmark_of_free f h)
    · exact List.mem_append_right _ (landmark_of_free x h)
  | .function _ _ body, _, _, _, _, h => List.mem_cons_of_mem _ (landmark_of_free body h)
  | .group _ inner, _, _, _, _, h => List.mem_cons_of_mem _ (landmark_of_free inner h)

theorem landmark_of_freeOf : ∀ (items : List (Expr Position)) {s : Nat} {t : ScopeTable} {bound : List String}
    {u : Site × String}, u ∈ freeOf bound (inScopeItems s items t).1 → (.name u.2, u.1.pos) ∈ landmarksOf items
  | [], _, _, _, _, h => by cases h
  | e :: rest, _, _, _, _, h => by
    rcases List.mem_append.1 h with h | h
    · exact List.mem_append_left _ (landmark_of_free e h)
    · exact List.mem_append_right _ (landmark_of_freeOf rest h)

end

end Expr

namespace Assignment

mutual

theorem landmark_of_free : ∀ (a : Assignment Position) {s : Nat} {t : ScopeTable} {bound : List String}
    {u : Site × String}, u ∈ (a.inScope s t).1.free bound → (.name u.2, u.1.pos) ∈ a.landmarks
  | .mk _ _ value clauses, _, _, _, _, h => by
    -- The clauses are compiled in front of the value and stand behind it in the source.
    rcases List.mem_append.1 h with h | h
    · exact List.mem_append_right _ (landmark_of_freeOf clauses h)
    · exact List.mem_append_left _ (List.mem_cons_of_mem _ (value.landmark_of_free h))

theorem landmark_of_freeOf : ∀ (as : List (Assignment Position)) {s : Nat} {t : ScopeTable} {bound : List String}
    {u : Site × String}, u ∈ freeOf bound (inScopeAll s as t).1 → (.name u.2, u.1.pos) ∈ landmarksOf as
  | [], _, _, _, _, h => by cases h
  | a :: rest, _, _, _, _, h => by
    rcases List.mem_append.1 h with h | h
    · exact List.mem_append_left _ (landmark_of_free a h)
    · exact List.mem_append_right _ (landmark_of_freeOf rest h)

end

theorem landmark_of_mem {as : List (Assignment Position)} {s : Nat} {t : ScopeTable} {a : Assignment Site Header}
    (h : a ∈ (inScopeAll s as t).1) : (.name a.name, a.mark.pos) ∈ landmarksOf as := by
  induction as generalizing t with
  | nil => cases h
  | cons b rest ih =>
    rcases List.mem_cons.1 h with rfl | h
    · cases b
      exact List.mem_cons_self
    · exact List.mem_append_right _ (ih h)

end Assignment

/-! ## Names are tokens -/

theorem Lexeme.mem_of_landmark {ts : List Lexeme} {x : String} {pos : Position}
    (h : (.name x, pos) ∈ Lexeme.landmarks ts) : ⟨.name x, pos⟩ ∈ ts := by
  obtain ⟨⟨t, pos'⟩, hl, hlandmark⟩ := List.mem_filterMap.1 h
  cases t <;> cases hlandmark
  exact hl

namespace Program

variable {source : String} {p : Program}

/-- What is a landmark in the trees of a program stands in its source. -/
theorem exists_nameAt_of_landmark {ts : List Lexeme} {as : List (Assignment Position)} {x : String} {pos : Position}
    (hscan : Scan.tokens source = .ok ts) (hread : Read.program ts = .ok as)
    (h : (.name x, pos) ∈ Assignment.landmarksOf as) :
    ∃ before after, Scan.NameAt source x pos before after := by
  rw [← (Read.landmarks_of_assignments hread).1] at h
  exact Scan.exists_nameAt hscan (Lexeme.mem_of_landmark h)

theorem exists_nameAt_of_free (h : parse source = .ok p) {u : Site × String} (hu : u ∈ p.free) :
    ∃ before after, Scan.NameAt source u.2 u.1.pos before after := by
  obtain ⟨ts, as, hscan, hread, rfl⟩ := exists_of_parse h
  exact exists_nameAt_of_landmark hscan hread (Assignment.landmark_of_freeOf as hu)

theorem exists_nameAt_of_mem (h : parse source = .ok p) {a : Assignment Site Header} (ha : a ∈ p.assignments) :
    ∃ before after, Scan.NameAt source a.name a.mark.pos before after := by
  obtain ⟨ts, as, hscan, hread, rfl⟩ := exists_of_parse h
  exact exists_nameAt_of_landmark hscan hread (Assignment.landmark_of_mem ha)

end Program

namespace Compile

theorem parse_ne_compile_error {source : String} {e : CompileError} : Program.parse source ≠ .error (.compile e) := by
  intro h
  unfold Program.parse at h
  split at h
  · cases h
  · split at h <;> cases h

/-- Compilation fails at an unresolved name just if this is the first free variable of the program. -/
theorem source_eq_unresolved_iff {text x : String} {o : Options} {pos : Position} :
    source text o = .error (.compile (.emit (.unresolved x pos))) ↔
      ∃ p site, Program.parse text = .ok p ∧ p.free.head? = some (site, x) ∧ site.pos = pos := by
  unfold source
  cases hparse : Program.parse text with
  | error e =>
    constructor
    · intro h
      obtain rfl : e = _ := Except.error.inj h
      exact absurd hparse parse_ne_compile_error
    · rintro ⟨p, site, hp, -⟩
      cases hp
  | ok p =>
    have hscoped := Program.wellScoped_of_parse hparse
    have hgrounded := Program.grounded_of_parse hparse
    rw [ok_bind]
    rcases hfree : p.free.head? with _ | ⟨site, y⟩
    · obtain ⟨c, hc⟩ := exists_program hscoped hgrounded (List.head?_eq_none_iff.1 hfree) o
      rw [hc]
      constructor
      · intro h
        cases h
      · rintro ⟨p', site, ⟨⟩, hu, -⟩
        rw [hfree] at hu
        cases hu
    · rw [program, programWith_eq_error hscoped hgrounded hfree]
      constructor
      · intro h
        cases h
        exact ⟨p, site, rfl, hfree, rfl⟩
      · rintro ⟨p', site', ⟨⟩, hu, rfl⟩
        rw [hfree] at hu
        cases hu
        rfl

end Compile

end Lamcode
