import Lamcode.Proofs.Emit.Computation

/-!
# Lamcode.Proofs.Emit.Bodies — the labels of function bodies

Every function body gets a label of its own name, in the order in which the functions are written. Nothing else has
that name, so the labels of function bodies are known from the table of labels alone. `EmitsBetween` follows them
through a computation, and `Quiet` says of code without functions that it adds none.
-/

namespace Lamcode

namespace LabelTable

/-- The labels of function bodies, in the order in which they were handed out. -/
def bodies (t : LabelTable) : List Label :=
  (t.names.toList.zipIdx.filter fun x => x.1 = "function").map fun x => ⟨x.2⟩

theorem bodies_reserved : reserved.bodies = [] := by
  decide

theorem bodies_fresh (t : LabelTable) (name : String) :
    (t.fresh name).2.bodies = t.bodies ++ if name = "function" then [⟨t.size⟩] else [] := by
  by_cases h : name = "function" <;> simp [bodies, fresh, size, List.zipIdx_append, h]

end LabelTable

namespace Emit

variable {β γ : Type} {t : ScopeTable} {site : Site} {bs bs' : List Label}

/-! ## Code without functions -/

/-- The state after has the labels of function bodies that the state before has. -/
abbrev SameBodies (s s' : EmitState) : Prop :=
  s'.labels.bodies = s.labels.bodies

instance : Harmless SameBodies where
  refl _ := rfl
  trans h k := k.trans h
  choose _ _ := rfl
  label s name h := by
    change (s.labels.fresh name).2.bodies = s.labels.bodies
    rw [LabelTable.bodies_fresh, if_neg h, List.append_nil]

/-- The computation hands out no label of a function body. -/
abbrev Quiet (e : Emit β) : Prop :=
  Moves SameBodies e

/-! ## What a computation can come out with, and between which labels -/

/-- Somewhere in a compilation with the scopes `t`, the computation comes out with `x`; the labels of function bodies
are those of `bs` before and those of `bs'` after. -/
def EmitsBetween (t : ScopeTable) (site : Site) (bs bs' : List Label) (e : Emit β) (x : β) : Prop :=
  ∃ s s', s.scopes = t ∧ s.labels.bodies = bs ∧ s'.labels.bodies = bs' ∧ e.runAt site s = (.ok x, s')

theorem Emits.exists_between {e : Emit β} {x : β} (h : Emits t site e x) :
    ∃ bs bs', EmitsBetween t site bs bs' e x := by
  obtain ⟨s, s', hs, hrun⟩ := h
  exact ⟨_, _, s, s', hs, rfl, rfl, hrun⟩

namespace EmitsBetween

theorem emits {e : Emit β} {x : β} (h : EmitsBetween t site bs bs' e x) : Emits t site e x := by
  obtain ⟨s, s', hs, -, -, hrun⟩ := h
  exact ⟨s, s', hs, hrun⟩

theorem within {e : Emit β} {other : Site} {x : β} (h : EmitsBetween t other bs bs' (Emit.within site e) x) :
    EmitsBetween t site bs bs' e x := h

theorem eq_of_quiet {e : Emit β} {x : β} (he : Quiet e) (h : EmitsBetween t site bs bs' e x) : bs' = bs := by
  obtain ⟨s, s', -, rfl, rfl, hrun⟩ := h
  have hbodies := he site s
  rwa [hrun] at hbodies

theorem bind {e : Emit β} {f : β → Emit γ} {y : γ} (he : Steady e)
    (h : EmitsBetween t site bs bs' (e >>= f) y) :
    ∃ x bs₁, EmitsBetween t site bs bs₁ e x ∧ EmitsBetween t site bs₁ bs' (f x) y := by
  obtain ⟨s, s'', rfl, rfl, rfl, hrun⟩ := h
  obtain ⟨x, s', hx, hy⟩ := exists_of_runAt_bind hrun
  have hs := he site s
  rw [hx] at hs
  exact ⟨x, _, ⟨s, s', rfl, rfl, rfl, hx⟩, s', s'', hs, rfl, rfl, hy⟩

/-- Code without functions in front leaves the labels to what comes behind it. -/
theorem bind_quiet {e : Emit β} {f : β → Emit γ} {y : γ} (he : Steady e) (hq : Quiet e)
    (h : EmitsBetween t site bs bs' (e >>= f) y) :
    ∃ x, Emits t site e x ∧ EmitsBetween t site bs bs' (f x) y := by
  obtain ⟨x, bs₁, hx, hy⟩ := h.bind he
  obtain rfl := hx.eq_of_quiet hq
  exact ⟨x, hx.emits, hy⟩

theorem map {e : Emit β} {f : β → γ} {y : γ}
    (h : EmitsBetween t site bs bs' (e >>= fun x => Pure.pure (f x)) y) :
    ∃ x, EmitsBetween t site bs bs' e x ∧ y = f x := by
  obtain ⟨s, s'', hs, hbs, hbs', hrun⟩ := h
  obtain ⟨x, s', hx, hy⟩ := exists_of_runAt_bind hrun
  rw [runAt_pure] at hy
  cases hy
  exact ⟨x, ⟨s, _, hs, hbs, hbs', hx⟩, rfl⟩

theorem bindName {scope : Nat} {name : String} {f : Unit → Emit β} {y : β}
    (h : EmitsBetween t site bs bs' (Emit.bindName scope name >>= f) y) :
    EmitsBetween (t.bind scope name) site bs bs' (f ()) y := by
  obtain ⟨s, s', rfl, hbs, hbs', hrun⟩ := h
  rw [runAt_bind_ok (runAt_bindName scope name site s)] at hrun
  exact ⟨{ s with scopes := s.scopes.bind scope name }, s', rfl, hbs, hbs', hrun⟩

/-- The label of a function body is added behind those there are. -/
theorem fresh_function {f : Label → Emit β} {y : β}
    (h : EmitsBetween t site bs bs' (fresh "function" >>= f) y) :
    ∃ entry, EmitsBetween t site (bs ++ [entry]) bs' (f entry) y := by
  obtain ⟨s, s', rfl, rfl, rfl, hrun⟩ := h
  rw [runAt_bind_ok (runAt_fresh _ site s)] at hrun
  exact ⟨⟨s.labels.size⟩, { s with labels := (s.labels.fresh "function").2 }, s', rfl,
    s.labels.bodies_fresh "function", rfl, hrun⟩

end EmitsBetween

end Emit

end Lamcode
