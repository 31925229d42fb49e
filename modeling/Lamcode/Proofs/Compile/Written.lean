import Mathlib.Algebra.Order.Group.Multiset
import Mathlib.Tactic.Abel
import Lamcode.Proofs.Compile.Draft
import Lamcode.Proofs.Emit.Piece

/-!
# Lamcode.Proofs.Compile.Written — the code of trees and built-ins, written twice

The code of every node is a piece: its labels are handed out and carried once, and it uses the names of the variables
in it, in the order in which the code is written (`Expr.uses`, `Assignment.uses`). With the built-ins, which find all
names they use, this puts a whole program together.
-/

namespace Lamcode

open Emit Operand

/-! ## Fragments -/

/-- Both parts of the two fragments are instances of one template, and the two templates share an account. -/
def TwinFragments (labels : List Label) (m : Nat) (f f' : Fragment) : Prop :=
  ∃ T H, Accounts labels m (T ++ H) ∧ Instance T f.inPlace ∧ Instance T f'.inPlace ∧
    Instance H f.hoisted ∧ Instance H f'.hoisted

theorem unordered_twinFragments : Unordered TwinFragments := by
  rintro labels labels' m f f' ⟨T, H, haccount, hf⟩ hlabels
  exact ⟨T, H, haccount.perm hlabels, hf⟩

namespace TwinFragments

variable {labels labels' : List Label} {m m' : Nat} {f f' g g' : Fragment}

theorem mono (h : TwinFragments labels m f f') (hm : m ≤ m') : TwinFragments labels m' f f' := by
  obtain ⟨T, H, haccount, hf⟩ := h
  exact ⟨T, H, haccount.mono hm, hf⟩

theorem append (h : TwinFragments labels m f f') (k : TwinFragments labels' m g g') :
    TwinFragments (labels ++ labels') m (f.append g) (f'.append g') := by
  obtain ⟨T, H, haccount, hf, hf', hb, hb'⟩ := h
  obtain ⟨T', H', haccount', hg, hg', hc, hc'⟩ := k
  refine ⟨T ++ T', H ++ H', (haccount.append haccount').reorder ?_, hf.append hg, hf'.append hg', hb.append hc,
    hb'.append hc'⟩
  rw [List.append_assoc, List.append_assoc]
  refine .append_left T ?_
  rw [← List.append_assoc, ← List.append_assoc]
  exact List.perm_append_comm.append_right H'

theorem ofItems {xs ys : List Item} (h : Twins labels m xs ys) :
    TwinFragments labels m (.ofItems xs) (.ofItems ys) := by
  obtain ⟨T, haccount, hxs, hys⟩ := h
  exact ⟨T, [], by rwa [List.append_nil], hxs, hys, .nil, .nil⟩

end TwinFragments

namespace Emit.Piece

variable {site : Site} {own own' refs refs' : List Label} {uses uses' : List (Site × String)}

theorem fragmentCode {pieces : List (Emit (List Item))} (h : Piece Twins site (concat pieces) own refs uses) :
    Piece TwinFragments site (Fragment.code pieces) own refs uses := by
  refine ⟨fun {t L} ht hL hrefs => ?_⟩
  rw [← Option.or_none (o := t.missing uses)]
  refine .bind (h.couples ht hL hrefs) ?_
  rintro t L' xs ys ⟨rfl, hle, hxs⟩
  exact .pure ⟨rfl, hle, .ofItems hxs⟩

theorem fragmentNil : Piece TwinFragments site (Fragment.concat []) [] [] [] :=
  fragmentCode nil

theorem fragmentCons {e : Emit Fragment} {es : List (Emit Fragment)}
    (h : Piece TwinFragments site e own refs uses)
    (k : Piece TwinFragments site (Fragment.concat es) own' refs' uses') :
    Piece TwinFragments site (Fragment.concat (e :: es)) (own ++ own') (refs ++ refs') (uses ++ uses') := by
  refine ⟨fun {t L} ht hL hrefs => ?_⟩
  rw [ScopeTable.missing_append, ← Option.or_none (o := t.missing uses')]
  refine .bind (h.couples ht hL fun r hr => hrefs r (List.mem_append_left _ hr)) ?_
  rintro t L₁ f f' ⟨rfl, hle, hf⟩
  refine .bind (k.couples ht (by omega) fun r hr =>
    Nat.lt_of_lt_of_le (hrefs r (List.mem_append_right _ hr)) hle) ?_
  rintro t L₂ g g' ⟨rfl, hle', hg⟩
  exact .pure ⟨rfl, by omega, unordered_twinFragments ((hf.mono hle').append hg) (perm_append_range _ _ hle hle')⟩

end Emit.Piece

/-! ## Trees -/

namespace Expr

mutual

/-- The variables of an expression with their sites, in the order in which they are looked up. -/
def uses : Expr Site → List (Site × String)
  | .number _ _ => []
  | .var site name => [(site, name)]
  | .tuple _ items => usesOf items
  | .call _ f x => f.uses ++ x.uses
  | .function _ _ body => body.uses
  | .group _ inner => inner.uses

/-- The variables of expressions with their sites. -/
def usesOf : List (Expr Site) → List (Site × String)
  | [] => []
  | e :: rest => e.uses ++ usesOf rest

end

end Expr

namespace Assignment

mutual

/-- The names that the code of an assignment looks up: those of its clauses, then those of its value. -/
def uses : Assignment Site Header → List (Site × String)
  | .mk head _ value clauses => usesOf head.own clauses ++ value.uses

/-- The names that the code of the assignments of a scope looks up; each value is stored under its name. -/
def usesOf (s : Nat) : List (Assignment Site Header) → List (Site × String)
  | [] => []
  | a :: rest => a.uses ++ (⟨s, a.mark.pos⟩, a.name) :: usesOf s rest

end

end Assignment

namespace Emit.Piece

variable {site : Site}

theorem copied {source : Operand} (n : Int) (hsource : source.mode?.isSome) (hlabels : source.labels = []) :
    Piece Twins site (Emit.copy source (rel n)) [] source.refs (source.vars.map (Prod.mk site)) := by
  have h : Piece Twins site (Emit.copy source (rel n)) [] (source.refs ++ []) ((source.vars ++ []).map _) :=
    copy hsource rfl hlabels
  rwa [List.append_nil, List.append_nil] at h

/-- An amount in a frame slot or in the code is added to the heap cursor. -/
theorem reserve (mode : Mode) (n : Int) :
    Piece Twins site (Emit.addTo (.const mode (.plain (.num n))) (.wordAt .ramPointer)) [] [] [] :=
  (addTo mode .position (.num n) (.addr .ramPointer) rfl rfl).restate rfl
    (fun r hr => .inr (by rw [List.mem_singleton.1 hr]; decide)) rfl

/-- Code that mentions reserved labels only. -/
theorem closed {e : Emit (List Item)} {refs : List Label} (h : Piece Twins site e [] refs [])
    (hrefs : refs.all (·.index < LabelTable.reserved.size)) : Piece Twins site e [] [] [] :=
  h.restate rfl (fun r hr => .inr (by simpa using List.all_eq_true.1 hrefs r hr)) rfl

/-- The account of a function literal: the parts are written one after the other, and the body comes in front of the
closure that holds its label. -/
theorem accounts_function {entry : Label} {n₀ n₁ n₂ n₃ n₄ : Nat} {T H C E D : Template}
    (hbody : Accounts (Label.range n₀ n₁) n₁ (T ++ H)) (hclosure : Accounts (Label.range n₁ n₂) n₂ C)
    (henter : Accounts (Label.range n₂ n₃) n₃ E) (hleave : Accounts (Label.range n₃ n₄) n₄ D)
    (h₁ : n₀ ≤ n₁) (h₂ : n₁ ≤ n₂) (h₃ : n₂ ≤ n₃) (h₄ : n₃ ≤ n₄) :
    Accounts ([entry] ++ Label.range n₀ n₄) n₄ (C ++ (.item (.hanging entry) :: E ++ T ++ D ++ H)) := by
  have hentry : Accounts [entry] n₄ (.ofItems [.hanging entry]) :=
    .ofItems [.hanging entry] (fun _ h => (nomatch h)) (fun _ h => (nomatch h))
  have hparts := hentry.append ((((hbody.mono (by omega)).append (hclosure.mono (by omega))).append
    (henter.mono h₄)).append hleave)
  rw [Label.range_append h₁ h₂, Label.range_append (by omega) h₃, Label.range_append (by omega) h₄] at hparts
  refine hparts.reorder (Multiset.coe_eq_coe.1 ?_)
  simp only [← Multiset.coe_add, ← Multiset.cons_coe, List.cons_append, Template.ofItems, List.map_cons, List.map_nil,
    ← Multiset.singleton_add, Multiset.coe_nil]
  abel

/-- A function literal: the code of its body is kept apart, behind the label that the closure holds. -/
theorem function {body : Emit Fragment} {closure enter leave : Emit (List Item)} {entry : Label}
    {uses : List (Site × String)} (hbody : Piece TwinFragments site body [] [] uses)
    (hclosure : Piece Twins site closure [] [entry] []) (henter : Piece Twins site enter [] [] [])
    (hleave : Piece Twins site leave [] [] []) :
    Piece TwinFragments site
      (do
        let inner ← body
        let closure ← closure
        let enter ← enter
        let leave ← leave
        return ⟨closure, .hanging entry :: enter ++ inner.inPlace ++ leave ++ inner.hoisted⟩)
      [entry] [entry] uses := by
  refine ⟨fun {t L} ht hL hrefs => ?_⟩
  have hentry : entry.index < L.size := hrefs entry (by simp)
  rw [← Option.or_none (o := t.missing uses)]
  refine .bind (hbody.couples ht hL (fun _ h => (nomatch h))) ?_
  rintro t L₁ f f' ⟨rfl, hle₁, T, H, haccount, hf, hf', hh, hh'⟩
  refine .bind_none (hclosure.couples ht (by omega) (by simpa using by omega)) ?_
  rintro t L₂ xs xs' ⟨rfl, hle₂, C, hC, hxs, hxs'⟩
  refine .bind_none (henter.couples ht (by omega) (fun _ h => (nomatch h))) ?_
  rintro t L₃ ys ys' ⟨rfl, hle₃, E, hE, hys, hys'⟩
  refine .bind_none (hleave.couples ht (by omega) (fun _ h => (nomatch h))) ?_
  rintro t L₄ zs zs' ⟨rfl, hle₄, D, hD, hzs, hzs'⟩
  refine .pure ⟨rfl, by omega, C, .item (.hanging entry) :: E ++ T ++ D ++ H, ?_, hxs, hxs', ?_, ?_⟩
  · exact accounts_function haccount hC hE hD hle₁ hle₂ hle₃ hle₄
  · exact .item _ (((hys.append hf).append hzs).append hh)
  · exact .item _ (((hys'.append hf').append hzs').append hh')

mutual

theorem expr (other : Site) : ∀ e : Expr Site, Piece TwinFragments other e.emit [] [] e.uses
  | .number site value => within (fragmentCode (.cons (copied 0 rfl rfl) nil))
  | .var site name => within (fragmentCode (.cons (copied 0 rfl rfl) nil))
  | .group site inner => within (expr site inner)
  | .tuple site items => by
    have hreserve : Piece Twins site
        (Emit.concat (if items.isEmpty then [] else [Emit.addTo (.int items.length) (.wordAt .ramPointer)]))
        [] [] [] := by
      split
      · exact nil
      · exact .cons (reserve _ _) nil
    have hopen : Piece Twins site (Emit.concat ([Emit.copy (rel (-2)) (rel 0), Emit.moveStack 2,
        Emit.copy (.wordAt .ramPointer) (rel (-1)), Emit.writeToRam (.int items.length)] ++
        if items.isEmpty then [] else [Emit.addTo (.int items.length) (.wordAt .ramPointer)])) [] [] [] :=
      closed (.cons (copied _ rfl rfl) <| .cons (moveStack _) <| .cons (copied _ rfl rfl) <|
        .cons (writeToRam rfl rfl) hreserve) rfl
    have hclose : Piece Twins site (Emit.concat [Emit.moveStack (-2), Emit.copy (rel 1) (rel 0)]) [] [] [] :=
      .cons (moveStack _) <| .cons (copied _ rfl rfl) nil
    refine within (.restate (fragmentCons (fragmentCode hopen) <| fragmentCons (exprItems site 0 items) <|
      fragmentCons (fragmentCode hclose) fragmentNil) rfl (fun _ h => (nomatch h)) ?_)
    exact List.append_nil _
  | .call site f x => by
    refine within (fresh unordered_twinFragments fun resume => ?_)
    have hframe : Piece Twins site (Emit.concat [Emit.copy (rel (-2)) (rel 1), Emit.moveStack 3]) [] [] [] :=
      .cons (copied _ rfl rfl) (.cons (moveStack _) nil)
    have hkeep : Piece Twins site (Emit.concat [Emit.copy (rel 0) (rel (-3))]) [] [] [] :=
      .cons (copied _ rfl rfl) nil
    have henter : Piece Twins site (Emit.concat [Emit.copy (rel 0) (rel (-1)),
        Emit.copy (.wordAt .ramPointer) (rel 0),
        Emit.writeToRam (Operand.offset (.int Heap.closureScope) (rel (-3))).toPointer,
        Emit.writeToRam (rel (-1)), Emit.copy (.addressOf resume) (rel 1),
        Emit.jump (Operand.offset (.int Heap.closureCode) (rel (-3))).toPointer, Emit.placeLabel resume,
        Emit.moveStack (-3), Emit.copy (rel 3) (rel 0)]) [resume] [.ramPointer, resume] [] :=
      .cons (copied _ rfl rfl) <| .cons (copied _ rfl rfl) <| .cons (writeToRam rfl rfl) <|
        .cons (writeToRam rfl rfl) <| .cons (copied _ rfl rfl) <| .cons (jump rfl) <|
        .cons (placeLabel _) <| .cons (moveStack _) <| .cons (copied _ rfl rfl) nil
    refine .restate (fragmentCons (fragmentCode hframe) <| fragmentCons (expr site f) <|
      fragmentCons (fragmentCode hkeep) <| fragmentCons (expr site x) <|
      fragmentCons (fragmentCode henter) fragmentNil) rfl ?_ ?_
    · intro r hr
      rcases List.mem_pair.1 hr with rfl | rfl
      · exact .inr (by decide)
      · exact .inl (by simp)
    · exact congrArg (f.uses ++ ·) (List.append_nil _)
  | .function site _ body => by
    refine within (fresh unordered_twinFragments fun entry => ?_)
    have hclosure : Piece Twins site (Emit.concat [Emit.copy (.wordAt .ramPointer) (rel 0),
        Emit.writeToRam (.addressOf entry), Emit.writeToRam (rel (-2))]) [] [.ramPointer, entry] [] :=
      .cons (copied _ rfl rfl) <| .cons (writeToRam rfl rfl) <| .cons (writeToRam rfl rfl) nil
    have hleave : Piece Twins site (Emit.concat [Emit.moveStack (-2), Emit.copy (rel 2) (rel 0),
        Emit.jump (rel 1)]) [] [] [] :=
      .cons (moveStack _) <| .cons (copied _ rfl rfl) <| .cons (jump rfl) nil
    exact function (expr site body)
      (hclosure.restate rfl (by simp [Label.ramPointer, LabelTable.reserved, LabelTable.size]) rfl) (moveStack 2) hleave

theorem exprItems (site : Site) : ∀ (index : Nat) (items : List (Expr Site)),
    Piece TwinFragments site (Expr.emitItems index items) [] [] (Expr.usesOf items)
  | _, [] => fragmentNil
  | index, e :: rest => by
    have hstore : Piece Twins site (Emit.concat
        [Emit.copy (rel 0) (.offset (.spill (rel (-1))) (.int (Heap.tupleHeader + index)))]) [] [] [] :=
      .cons (copy rfl rfl rfl) nil
    refine .restate (fragmentCons (expr site e) <| fragmentCons (fragmentCode hstore) <|
      fragmentCons (exprItems site (index + 1) rest) fragmentNil) rfl (fun _ h => (nomatch h)) ?_
    exact congrArg (e.uses ++ ·) (List.append_nil _)

end

mutual

theorem assignment (other : Site) : ∀ a : Assignment Site Header, Piece TwinFragments other a.emit [] [] a.uses
  | .mk head _ value clauses => by
    refine fresh unordered_twinFragments fun ready => within ?_
    have hopen : Piece Twins head.toSite (Emit.concat [Emit.copy (.int clauses.length) (rel 0),
        Emit.copy (rel (-2)) (rel 1), Emit.copy (.addressOf ready) (rel 2),
        Emit.jump (.addressOf .allocateScope), Emit.placeLabel ready, Emit.moveStack 2])
        [ready] [ready, .allocateScope] [] :=
      .cons (copied _ rfl rfl) <| .cons (copied _ rfl rfl) <| .cons (copied _ rfl rfl) <| .cons (jump rfl) <|
        .cons (placeLabel _) <| .cons (moveStack _) nil
    have hclose : Piece Twins head.toSite (Emit.concat [Emit.moveStack (-2), Emit.copy (rel 2) (rel 0)]) [] [] [] :=
      .cons (moveStack _) <| .cons (copied _ rfl rfl) nil
    refine .restate (fragmentCons (fragmentCode hopen) <| fragmentCons (assignments _ head.own clauses) <|
      fragmentCons (expr _ value) <| fragmentCons (fragmentCode hclose) fragmentNil) rfl ?_ ?_
    · intro r hr
      rcases List.mem_pair.1 hr with rfl | rfl
      · exact .inl (by simp)
      · exact .inr (by decide)
    · exact congrArg (Assignment.usesOf head.own clauses ++ ·) (List.append_nil _)

theorem assignments (other : Site) (s : Nat) : ∀ as : List (Assignment Site Header),
    Piece TwinFragments other (Assignment.emitAll s as) [] [] (Assignment.usesOf s as)
  | [] => fragmentNil
  | a :: rest => by
    have hstore : Piece Twins ⟨s, a.mark.pos⟩ (Emit.concat [Emit.copy (rel 0) (.named a.name)]) [] []
        [(⟨s, a.mark.pos⟩, a.name)] :=
      .cons (copy rfl rfl rfl) nil
    refine .restate (fragmentCons (assignment other a) <| fragmentCons (within (fragmentCode hstore)) <|
      fragmentCons (assignments other s rest) fragmentNil) rfl (fun _ h => (nomatch h)) ?_
    exact congrArg (fun us => a.uses ++ (⟨s, a.mark.pos⟩, a.name) :: us) (List.append_nil _)

end

/-- The routine that allocates records carries its label. -/
theorem allocator : Piece Twins site Compile.allocator [.allocateScope] [] [] :=
  .restate (.cons (placeLabel _) <| .cons (copied _ rfl rfl) <| .cons (writeToRam rfl rfl) <|
    .cons (reserve _ _) <| .cons (copied _ rfl rfl) <| .cons (jump rfl) nil) rfl
    (fun r hr => .inr (by rw [List.mem_singleton.1 hr]; decide)) rfl

end Emit.Piece

end Lamcode
