/-!
# Lamcode.Proofs.Result — results of computations that may fail

A computation that ends with a result passes the test that this result passes, and one that fails passes none. So a test
that was evaluated says what the result is like, and that there is one; `error?` serves for a computation that fails.
The other lemmas take computations apart: one that goes on from a result, and one whose steps report their errors in one
form.
-/

namespace Lamcode

variable {ε ε' β γ : Type}

theorem exists_ok_of_any {x : Except ε β} {test : β → Bool} (h : x.toOption.any test = true) :
    ∃ b, x = .ok b ∧ test b = true := by
  cases x with
  | error e => cases h
  | ok b => exact ⟨b, rfl, h⟩

/-- The error of a computation that failed. -/
def error? : Except ε β → Option ε
  | .error e => some e
  | .ok _ => none

theorem eq_error_of_error? {x : Except ε β} {e : ε} (h : error? x = some e) : x = .error e := by
  cases x with
  | error e => exact congrArg Except.error (Option.some.inj h)
  | ok b => cases h

theorem ok_bind (b : β) (f : β → Except ε γ) : Except.ok b >>= f = f b := rfl

theorem bind_mapError_eq_ok {x : Except ε β} {f : ε → ε'} {g : β → Except ε' γ} {c : γ} :
    x.mapError f >>= g = .ok c ↔ ∃ b, x = .ok b ∧ g b = .ok c := by
  cases x with
  | error e =>
    constructor
    · intro h
      cases h
    · rintro ⟨_, h, _⟩
      cases h
  | ok b =>
    constructor
    · intro h
      exact ⟨b, rfl, h⟩
    · rintro ⟨_, ⟨⟩, h⟩
      exact h

end Lamcode
