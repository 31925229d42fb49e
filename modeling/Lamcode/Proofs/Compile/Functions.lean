import Lamcode.Proofs.Compile.Draft
import Lamcode.Proofs.Reference.Allocate

/-!
# Lamcode.Proofs.Compile.Functions — one label for every function

Writing a tree hands out one label for the body of each function that is written in it, and whole programs hand out no
others: the table of a compiled program lists the bodies of its functions in the order in which they are written.
-/

namespace Lamcode

open Emit Operand

namespace Emit

variable {β γ : Type} {n m : Nat}

/-- Where the computation succeeds, it has added `n` labels of function bodies. -/
def Adds (n : Nat) (e : Emit β) : Prop :=
  ∀ ⦃t : ScopeTable⦄ ⦃site : Site⦄ ⦃bs bs' : List Label⦄ ⦃x : β⦄, EmitsBetween t site bs bs' e x →
    ∃ ls, ls.length = n ∧ bs' = bs ++ ls

namespace Adds

theorem of_quiet {e : Emit β} (he : Quiet e) : Adds 0 e := by
  intro t site bs bs' x h
  exact ⟨[], rfl, by rw [h.eq_of_quiet he, List.append_nil]⟩

theorem within {e : Emit β} (site : Site) (he : Adds n e) : Adds n (Emit.within site e) :=
  fun _ _ _ _ _ h => he h.within

theorem fresh {name : String} (hname : name ≠ "function") {f : Label → Emit β} (hf : ∀ l, Adds n (f l)) :
    Adds n (Emit.fresh name >>= f) := by
  intro t site bs bs' x h
  obtain ⟨l, -, h⟩ := h.bind_quiet (.fresh _) (.fresh hname)
  exact hf l h

theorem nil : Adds 0 (Fragment.concat []) :=
  of_quiet .fragmentNil

theorem cons {e : Emit Fragment} {es : List (Emit Fragment)} (hsteady : Steady e) (he : Adds n e)
    (hes : Adds m (Fragment.concat es)) : Adds (n + m) (Fragment.concat (e :: es)) := by
  intro t site bs bs' frag h
  obtain ⟨first, rest, bs₁, hfirst, hrest, -⟩ := h.fragmentCons hsteady
  obtain ⟨ls, rfl, rfl⟩ := he hfirst
  obtain ⟨ls', rfl, rfl⟩ := hes hrest
  exact ⟨ls ++ ls', List.length_append, List.append_assoc ..⟩

/-- Code without functions adds nothing to what comes behind it. -/
theorem quiet_cons {e : Emit Fragment} {es : List (Emit Fragment)}
    (he : ∀ (R : EmitState → EmitState → Prop) [Harmless R], Moves R e) (hes : Adds m (Fragment.concat es)) :
    Adds m (Fragment.concat (e :: es)) := by
  have h := cons (he _) (of_quiet (he _)) hes
  rwa [Nat.zero_add] at h

mutual

/-- One label for each function that is written in the expression. -/
theorem expr : ∀ e : Expr Site, Adds e.functions e.emit
  | .number site value => by
    rw [Expr.emit]
    exact of_quiet (.within _ (.fragmentCode (by simp)))
  | .var site name => by
    rw [Expr.emit]
    exact of_quiet (.within _ (.fragmentCode (by simp)))
  | .group site inner => by
    rw [Expr.emit]
    exact within _ (expr inner)
  | .tuple site items => by
    rw [Expr.emit]
    change Adds (Expr.functionsOf items + 0) _
    exact within _ (quiet_cons (fun _ _ => .fragmentCode (by split <;> simp))
      (cons (.exprItems 0 items) (exprItems 0 items) (quiet_cons (fun _ _ => .fragmentCode (by simp)) nil)))
  | .call site f x => by
    rw [Expr.emit]
    change Adds (f.functions + (x.functions + 0)) _
    exact within _ (fresh (by decide) fun _ => quiet_cons (fun _ _ => .fragmentCode (by simp))
      (cons (.expr f) (expr f) (quiet_cons (fun _ _ => .fragmentCode (by simp))
        (cons (.expr x) (expr x) (quiet_cons (fun _ _ => .fragmentCode (by simp)) nil)))))
  | .function site param body => by
    intro t other bs bs' frag h
    obtain ⟨entry, inner, closure, enter, leave, hinner, -⟩ := h.function
    obtain ⟨ls, hls, rfl⟩ := expr body hinner
    refine ⟨entry :: ls, ?_, by rw [List.append_assoc, List.singleton_append]⟩
    rw [List.length_cons, hls, Expr.functions, Nat.add_comm]

theorem exprItems : ∀ (index : Nat) (items : List (Expr Site)),
    Adds (Expr.functionsOf items) (Expr.emitItems index items)
  | _, [] => by
    rw [Expr.emitItems]
    exact nil
  | index, e :: rest => by
    rw [Expr.emitItems]
    change Adds (e.functions + (Expr.functionsOf rest + 0)) _
    exact cons (.expr e) (expr e) (quiet_cons (fun _ _ => .fragmentCode (by simp))
      (cons (.exprItems _ rest) (exprItems (index + 1) rest) nil))

end

mutual

theorem assignment : ∀ a : Assignment Site Header, Adds a.functions a.emit
  | .mk head name value clauses => by
    rw [Assignment.emit]
    change Adds (Assignment.functionsOf clauses + (value.functions + 0)) _
    exact fresh (by decide) fun _ => within _ (quiet_cons (fun _ _ => .fragmentCode (by simp))
      (cons (.assignments _ clauses) (assignments _ clauses) (cons (.expr value) (expr value)
        (quiet_cons (fun _ _ => .fragmentCode (by simp)) nil))))

/-- One label for each function that is written in the assignments. -/
theorem assignments (s : Nat) : ∀ as : List (Assignment Site Header),
    Adds (Assignment.functionsOf as) (Assignment.emitAll s as)
  | [] => by
    rw [Assignment.emitAll]
    exact nil
  | a :: rest => by
    rw [Assignment.emitAll]
    change Adds (a.functions + (Assignment.functionsOf rest + 0)) _
    exact cons (.assignment a) (assignment a) (quiet_cons (fun _ _ => .within _ (.fragmentCode (by simp)))
      (cons (.assignments s rest) (assignments s rest) nil))

end

end Adds

end Emit

theorem FragmentBetween.exists_bodies {L : Layout} {t : ScopeTable} {site : Site} {bs bs' : List Label}
    {e : Emit Fragment} {a a' h h' n : Nat} (hs : FragmentBetween L t site bs bs' e a a' h h') (he : Adds n e) :
    ∃ ls, ls.length = n ∧ bs' = bs ++ ls := by
  obtain ⟨frag, hfrag, -⟩ := hs
  exact he hfrag

end Lamcode
