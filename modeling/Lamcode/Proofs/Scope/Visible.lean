import Lamcode.Proofs.Scope.Scoped

/-!
# Lamcode.Proofs.Scope.Visible — which names are seen from a scope

`Sees t s names` lists the names of a scope and of the scopes around it, innermost first. A name resolves from
a scope if and only if it is among them (`Sees.exists_resolve_iff`). The scopes of a program whose records have fixed
addresses are the two outermost ones, so these records have reserved labels (`Grounded`).
-/

namespace Lamcode

namespace ScopeTable

/-- The names that are bound in the scope or in a scope around it. Every scope is numbered after the one around it. -/
inductive Sees (t : ScopeTable) : Nat → List String → Prop
  | outermost {s : Nat} {location : Option Label} {names : List String} :
    t.get s = ⟨none, location, names⟩ → s < t.size → Sees t s names
  | inner {s outer : Nat} {location : Option Label} {names outside : List String} :
    t.get s = ⟨some outer, location, names⟩ → outer < s → s < t.size → Sees t outer outside →
      Sees t s (names ++ outside)

namespace Sees

variable {t t' : ScopeTable} {s : Nat} {visible : List String}

theorem lt_size (h : t.Sees s visible) : s < t.size := by
  cases h <;> assumption

/-- The way out of a scope is no longer than its number. -/
theorem isSome_resolveWithin_iff (h : t.Sees s visible) {limit : Nat} (hlimit : s < limit) (name : String) :
    (t.resolveWithin name limit s).isSome ↔ name ∈ visible := by
  induction h generalizing limit with
  | @outermost s location names hget hlt =>
    obtain ⟨limit, rfl⟩ : ∃ k, limit = k + 1 := ⟨limit - 1, by omega⟩
    rcases hi : names.idxOf? name with _ | i
    · rw [resolveWithin_outermost (by rw [hget]; exact hi) (by rw [hget])]
      simpa using List.idxOf?_eq_none_iff.1 hi
    · rw [resolveWithin_here (by rw [hget]; exact hi)]
      have hmem : name ∈ names := List.isSome_idxOf?.1 (by rw [hi]; rfl)
      simpa using hmem
  | @inner s outer location names outside hget houter hlt _ ih =>
    obtain ⟨limit, rfl⟩ : ∃ k, limit = k + 1 := ⟨limit - 1, by omega⟩
    rw [List.mem_append]
    rcases hi : names.idxOf? name with _ | i
    · rw [resolveWithin_outer (by rw [hget]; exact hi) (by rw [hget]), Option.isSome_map,
        ih (show outer < limit by omega)]
      have hnot : name ∉ names := List.idxOf?_eq_none_iff.1 hi
      simp [hnot]
    · rw [resolveWithin_here (by rw [hget]; exact hi)]
      have hmem : name ∈ names := List.isSome_idxOf?.1 (by rw [hi]; rfl)
      simp [hmem]

theorem exists_resolve_iff (h : t.Sees s visible) (name : String) :
    (∃ r, t.resolve s name = some r) ↔ name ∈ visible := by
  rw [← Option.isSome_iff_exists]
  exact h.isSome_resolveWithin_iff h.lt_size name

/-- More scopes behind the ones there are change nothing. -/
theorem mono (h : t.Sees s visible) (ht : t.Extends t') : t'.Sees s visible := by
  induction h with
  | outermost hget hlt =>
    exact .outermost ((ht.get_eq hlt).trans hget) (Nat.lt_of_lt_of_le hlt ht.size_le)
  | inner hget houter hlt _ ih =>
    exact .inner ((ht.get_eq hlt).trans hget) houter (Nat.lt_of_lt_of_le hlt ht.size_le) ih

end Sees

/-! ## Opening a scope for one name -/

/-- The table with one more scope, inside `outer`, that binds one name. -/
def level (t : ScopeTable) (outer : Nat) (param : String) : ScopeTable :=
  (t.child outer).2.bind t.size param

variable (t : ScopeTable) (outer : Nat) (param : String)

@[simp] theorem size_level : (t.level outer param).size = t.size + 1 := by
  simp [level]

@[simp] theorem get_level_self : (t.level outer param).get t.size = ⟨some outer, none, [param]⟩ := by
  rw [level, get_bind_self _ _ (by simp), get_child_self]
  rfl

theorem extends_level : t.Extends (t.level outer param) := by
  refine ⟨by simp, fun hi => ?_⟩
  rw [level, get_bind_of_ne _ _ (Nat.ne_of_lt hi), get_child_of_lt _ hi]

variable {t outer}

theorem Sees.level {visible : List String} (h : t.Sees outer visible) :
    (t.level outer param).Sees t.size (param :: visible) :=
  .inner (get_level_self t outer param) h.lt_size (by simp) (h.mono (t.extends_level outer param))

/-! ## Records at fixed addresses -/

/-- All records at fixed addresses have reserved labels. -/
def Grounded (t : ScopeTable) : Prop :=
  ∀ ⦃s : Nat⦄ ⦃l : Label⦄, (t.get s).location = some l → l.index < LabelTable.reserved.size

namespace Grounded

theorem initial : ScopeTable.initial.Grounded := by
  intro s l hl
  match s with
  | 0 =>
    cases hl
    decide
  | 1 =>
    cases hl
    decide
  | s + 2 => simp [ScopeTable.get, ScopeTable.initial] at hl

theorem child (ht : t.Grounded) (outer : Nat) : (t.child outer).2.Grounded := by
  intro s l hl
  by_cases hs : s < t.size
  · rw [t.get_child_of_lt hs] at hl
    exact ht hl
  · have hlt := (t.child outer).2.lt_size_of_get_ne (s := s) fun h => by simp [h] at hl
    obtain rfl : s = t.size := by
      rw [size_child] at hlt
      omega
    simp at hl

theorem bind (ht : t.Grounded) (scope : Nat) (name : String) : (t.bind scope name).Grounded := by
  intro s l hl
  by_cases hs : s = scope
  · subst hs
    by_cases hlt : s < t.size
    · rw [get_bind_self _ _ hlt] at hl
      exact ht hl
    · have := (t.bind s name).lt_size_of_get_ne (s := s) fun h => by simp [h] at hl
      exact absurd (by simpa using this) hlt
  · rw [get_bind_of_ne _ _ hs] at hl
    exact ht hl

theorem level (ht : t.Grounded) (outer : Nat) (param : String) : (t.level outer param).Grounded :=
  (ht.child outer).bind t.size param

end Grounded

end ScopeTable

open ScopeTable

mutual

theorem Expr.grounded_inScope (s : Nat) : ∀ (e : Expr Position) {t : ScopeTable}, t.Grounded →
    (e.inScope s t).2.Grounded
  | .number _ _, _, ht => ht
  | .var _ _, _, ht => ht
  | .tuple _ items, _, ht => grounded_inScopeItems s items ht
  | .call _ f x, _, ht => x.grounded_inScope s (f.grounded_inScope s ht)
  | .function _ param body, t, ht => body.grounded_inScope t.size (ht.level s param)
  | .group _ e, _, ht => e.grounded_inScope s ht

theorem Expr.grounded_inScopeItems (s : Nat) : ∀ (items : List (Expr Position)) {t : ScopeTable}, t.Grounded →
    (Expr.inScopeItems s items t).2.Grounded
  | [], _, ht => ht
  | e :: rest, _, ht => grounded_inScopeItems s rest (e.grounded_inScope s ht)

end

mutual

theorem Assignment.grounded_inScope (s : Nat) : ∀ (a : Assignment Position) {t : ScopeTable}, t.Grounded →
    (a.inScope s t).2.Grounded
  | .mk _ _ value clauses, t, ht =>
    grounded_inScopeAll t.size clauses (value.grounded_inScope t.size (ht.child s))

theorem Assignment.grounded_inScopeAll (s : Nat) : ∀ (as : List (Assignment Position)) {t : ScopeTable},
    t.Grounded → (Assignment.inScopeAll s as t).2.Grounded
  | [], _, ht => ht
  | a :: rest, _, ht => grounded_inScopeAll s rest ((a.grounded_inScope s ht).bind s _)

end

theorem Program.grounded_ofAssignments (as : List (Assignment Position)) : (ofAssignments as).scopes.Grounded :=
  Assignment.grounded_inScopeAll globals as .initial

end Lamcode
