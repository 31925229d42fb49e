import Lamcode.Proofs.Emit.Computation

/-!
# Lamcode.Proofs.Emit.Coupled — the same code written twice

Two runs of a computation that differ in their choices only stay together: they fail with the same error, or they
hand out the same labels and open the same scopes. `Couples` says so of two computations, with the error they fail
with and what relates their results, and is followed through `bind` from here on.
-/

namespace Lamcode

namespace Emit

variable {β γ : Type}

/-! ## Two runs -/

/-- Run at one site with the same labels and scopes, and with any choices, both computations fail with `fault`; or
they succeed, leave the same labels and scopes, and come out with what `P` relates. -/
def Couples (t : ScopeTable) (L : LabelTable) (site : Site) (e₁ e₂ : Emit β) (fault : Option EmitError)
    (P : ScopeTable → LabelTable → β → β → Prop) : Prop :=
  ∀ c₁ c₂ : Choice,
    match fault with
    | some err =>
      (∃ s, e₁.runAt site ⟨L, t, c₁⟩ = (.error err, s)) ∧ ∃ s, e₂.runAt site ⟨L, t, c₂⟩ = (.error err, s)
    | none =>
      ∃ t' L' c₁' c₂' x₁ x₂, e₁.runAt site ⟨L, t, c₁⟩ = (.ok x₁, ⟨L', t', c₁'⟩) ∧
        e₂.runAt site ⟨L, t, c₂⟩ = (.ok x₂, ⟨L', t', c₂'⟩) ∧ P t' L' x₁ x₂

namespace Couples

variable {t : ScopeTable} {L : LabelTable} {site : Site} {e₁ e₂ : Emit β} {f₁ f₂ : β → Emit γ}
  {fault fault' : Option EmitError} {P : ScopeTable → LabelTable → β → β → Prop}
  {Q : ScopeTable → LabelTable → γ → γ → Prop}

theorem pure {x₁ x₂ : β} (h : P t L x₁ x₂) : Couples t L site (Pure.pure x₁) (Pure.pure x₂) none P :=
  fun c₁ c₂ => ⟨t, L, c₁, c₂, x₁, x₂, rfl, rfl, h⟩

theorem bind (h : Couples t L site e₁ e₂ fault P)
    (k : ∀ t' L' x₁ x₂, P t' L' x₁ x₂ → Couples t' L' site (f₁ x₁) (f₂ x₂) fault' Q) :
    Couples t L site (e₁ >>= f₁) (e₂ >>= f₂) (fault.or fault') Q := by
  intro c₁ c₂
  cases fault with
  | some err =>
    obtain ⟨⟨s₁, h₁⟩, s₂, h₂⟩ := h c₁ c₂
    exact ⟨⟨s₁, runAt_bind_error h₁ f₁⟩, s₂, runAt_bind_error h₂ f₂⟩
  | none =>
    obtain ⟨t', L', c₁', c₂', x₁, x₂, h₁, h₂, hP⟩ := h c₁ c₂
    have hk := k t' L' x₁ x₂ hP c₁' c₂'
    rw [runAt_bind_ok h₁, runAt_bind_ok h₂]
    exact hk

/-- A first part that does not fail leaves it to the second one. -/
theorem bind_none (h : Couples t L site e₁ e₂ none P)
    (k : ∀ t' L' x₁ x₂, P t' L' x₁ x₂ → Couples t' L' site (f₁ x₁) (f₂ x₂) fault' Q) :
    Couples t L site (e₁ >>= f₁) (e₂ >>= f₂) fault' Q :=
  bind h k

theorem mono (h : Couples t L site e₁ e₂ fault P) {P' : ScopeTable → LabelTable → β → β → Prop}
    (hP : ∀ t' L' x₁ x₂, P t' L' x₁ x₂ → P' t' L' x₁ x₂) : Couples t L site e₁ e₂ fault P' := by
  intro c₁ c₂
  have hc := h c₁ c₂
  cases fault with
  | some err => exact hc
  | none =>
    obtain ⟨t', L', c₁', c₂', x₁, x₂, h₁, h₂, hx⟩ := hc
    exact ⟨t', L', c₁', c₂', x₁, x₂, h₁, h₂, hP _ _ _ _ hx⟩

theorem throw (err : EmitError) : Couples t L site (throw err) (throw err) (some err) P :=
  fun _ _ => ⟨⟨_, rfl⟩, _, rfl⟩

theorem fresh {name : String} {f₁ f₂ : Label → Emit γ}
    (h : Couples t (L.fresh name).2 site (f₁ ⟨L.size⟩) (f₂ ⟨L.size⟩) fault Q) :
    Couples t L site (Emit.fresh name >>= f₁) (Emit.fresh name >>= f₂) fault Q := by
  intro c₁ c₂
  rw [runAt_bind_ok (runAt_fresh name site _), runAt_bind_ok (runAt_fresh name site _)]
  exact h c₁ c₂

theorem read {f₁ f₂ : Site → Emit γ} (h : Couples t L site (f₁ site) (f₂ site) fault Q) :
    Couples t L site (MonadReader.read >>= f₁) (MonadReader.read >>= f₂) fault Q := by
  intro c₁ c₂
  rw [runAt_bind_ok (runAt_read site _), runAt_bind_ok (runAt_read site _)]
  exact h c₁ c₂

theorem get {f₁ f₂ : EmitState → Emit γ}
    (h : ∀ c₁ c₂, Couples t L site (f₁ ⟨L, t, c₁⟩) (f₂ ⟨L, t, c₂⟩) fault Q) :
    Couples t L site (MonadState.get >>= f₁) (MonadState.get >>= f₂) fault Q := by
  intro c₁ c₂
  rw [runAt_bind_ok (runAt_get site _), runAt_bind_ok (runAt_get site _)]
  exact h c₁ c₂ c₁ c₂

theorem openScope {outer : Nat} {f₁ f₂ : Nat → Emit γ}
    (h : Couples (t.child outer).2 L site (f₁ t.size) (f₂ t.size) fault Q) :
    Couples t L site (Emit.openScope outer >>= f₁) (Emit.openScope outer >>= f₂) fault Q := by
  intro c₁ c₂
  rw [runAt_bind_ok (runAt_openScope outer site _), runAt_bind_ok (runAt_openScope outer site _)]
  exact h c₁ c₂

theorem bindName {scope : Nat} {name : String} {f₁ f₂ : Unit → Emit γ}
    (h : Couples (t.bind scope name) L site (f₁ ()) (f₂ ()) fault Q) :
    Couples t L site (Emit.bindName scope name >>= f₁) (Emit.bindName scope name >>= f₂) fault Q := by
  intro c₁ c₂
  rw [runAt_bind_ok (runAt_bindName scope name site _), runAt_bind_ok (runAt_bindName scope name site _)]
  exact h c₁ c₂

end Couples

end Emit

end Lamcode
