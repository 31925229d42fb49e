import Mathlib.Tactic.ByContra
import Lamcode.Proofs.Scope.Threading

/-!
# Lamcode.Proofs.Scope.Scoped — the sites of a program fit its scopes

Every node of a program carries the number of the scope it stands in. `ScopedIn` says of a tree that these numbers are
right for a table: sub-expressions stand in the scope of their node, and a function body or the inside of an
assignment stands in a scope of its own, which lies directly inside and binds just the parameter or the names of the
clauses. Scopes are only ever added behind the ones there are, so scoping a whole program yields such trees
(`wellScoped_ofAssignments`).
-/

namespace Lamcode

namespace ScopeTable

variable (t : ScopeTable)

@[simp] theorem size_child (outer : Nat) : (t.child outer).2.size = t.size + 1 :=
  Array.size_push ..

@[simp] theorem size_bind (s : Nat) (name : String) : (t.bind s name).size = t.size :=
  Array.size_modify ..

@[simp] theorem child_fst (outer : Nat) : (t.child outer).1 = t.size := rfl

theorem get_child_of_lt {outer s : Nat} (h : s < t.size) : (t.child outer).2.get s = t.get s := by
  have hs : s < t.scopes.size := h
  simp [get, child, Array.getD_eq_getD_getElem?, Array.getElem?_push, Nat.ne_of_lt hs]

@[simp] theorem get_child_self (outer : Nat) : (t.child outer).2.get t.size = ⟨some outer, none, []⟩ := by
  simp [get, child, size]

theorem get_bind_of_ne {s s' : Nat} (name : String) (h : s' ≠ s) : (t.bind s name).get s' = t.get s' := by
  simp [get, bind, Array.getD_eq_getD_getElem?, Array.getElem?_modify, Ne.symm h]

theorem get_bind_self {s : Nat} (name : String) (h : s < t.size) :
    (t.bind s name).get s = { t.get s with names := (t.get s).names ++ [name] } := by
  have hs : s < t.scopes.size := h
  simp [get, bind, hs, Array.getElem_modify_self]

/-- A scope that is not like those outside the table is in the table. -/
theorem lt_size_of_get_ne {s : Nat} (h : t.get s ≠ ⟨none, none, []⟩) : s < t.size := by
  by_contra hs
  have hs : t.scopes.size ≤ s := Nat.le_of_not_lt hs
  exact h (by simp [get, Array.getD_eq_getD_getElem?, hs])

/-! ### Resolving a name -/

variable {t}

theorem resolveWithin_here {name : String} {limit s offset : Nat}
    (h : (t.get s).names.idxOf? name = some offset) :
    t.resolveWithin name (limit + 1) s = some ((t.get s).slot offset) := by
  rw [resolveWithin, h]

theorem resolveWithin_outer {name : String} {limit s outer : Nat}
    (h : (t.get s).names.idxOf? name = none) (hparent : (t.get s).parent = some outer) :
    t.resolveWithin name (limit + 1) s = (t.resolveWithin name limit outer).map Resolution.fromChild := by
  rw [resolveWithin, h, hparent]

theorem resolveWithin_outermost {name : String} {limit s : Nat}
    (h : (t.get s).names.idxOf? name = none) (hparent : (t.get s).parent = none) :
    t.resolveWithin name (limit + 1) s = none := by
  rw [resolveWithin, h, hparent]

end ScopeTable

/-! ## Trees that fit a table -/

namespace Expr

mutual

/-- The node stands in the scope `s` of the table, and all nodes below it where they should. -/
def ScopedIn (t : ScopeTable) (s : Nat) : Expr Site → Prop
  | .number site _ => site.scope = s
  | .var site _ => site.scope = s
  | .tuple site items => site.scope = s ∧ AllScopedIn t s items
  | .call site f x => site.scope = s ∧ f.ScopedIn t s ∧ x.ScopedIn t s
  | .function site param body =>
    site.scope = s ∧ ∃ inner, t.get inner = ⟨some s, none, [param]⟩ ∧ s < inner ∧ body.ScopedIn t inner
  | .group site e => site.scope = s ∧ e.ScopedIn t s

/-- All of the expressions stand in the scope. -/
def AllScopedIn (t : ScopeTable) (s : Nat) : List (Expr Site) → Prop
  | [] => True
  | e :: rest => e.ScopedIn t s ∧ AllScopedIn t s rest

end

end Expr

namespace Assignment

mutual

/-- The assignment stands in the scope `s` of the table. Its own scope is there for the names of its clauses, and its
value and its clauses stand in that one. -/
def ScopedIn (t : ScopeTable) (s : Nat) : Assignment Site Header → Prop
  | .mk head _ value clauses =>
    head.scope = s ∧ t.get head.own = ⟨some s, none, clauses.map name⟩ ∧ s < head.own ∧
      value.ScopedIn t head.own ∧ AllScopedIn t head.own clauses

/-- All of the assignments stand in the scope. -/
def AllScopedIn (t : ScopeTable) (s : Nat) : List (Assignment Site Header) → Prop
  | [] => True
  | a :: rest => a.ScopedIn t s ∧ AllScopedIn t s rest

end

end Assignment

/-! ## Scoping a program -/

namespace ScopeTable

/-- The second table has the scopes of the first one, and maybe more behind them. -/
structure Extends (t t' : ScopeTable) : Prop where
  size_le : t.size ≤ t'.size
  get_eq : ∀ {i}, i < t.size → t'.get i = t.get i

theorem Extends.refl (t : ScopeTable) : t.Extends t :=
  ⟨Nat.le_refl _, fun _ => rfl⟩

theorem Extends.trans {t t' t'' : ScopeTable} (h : t.Extends t') (k : t'.Extends t'') : t.Extends t'' :=
  ⟨Nat.le_trans h.size_le k.size_le, fun hi => by
    rw [k.get_eq (Nat.lt_of_lt_of_le hi h.size_le), h.get_eq hi]⟩

theorem extends_child (t : ScopeTable) (outer : Nat) : t.Extends (t.child outer).2 :=
  ⟨by rw [size_child]; exact Nat.le_succ _, fun hi => t.get_child_of_lt hi⟩

/-- The table has the scopes that `t'` has from `lo` on. -/
def Agrees (T : ScopeTable) (lo : Nat) (t' : ScopeTable) : Prop :=
  ∀ i, lo ≤ i → i < t'.size → T.get i = t'.get i

/-- Scopes that stay as they are up to a later table can be looked up in that one. -/
theorem Agrees.earlier {T t t' : ScopeTable} {lo lo' : Nat} (h : T.Agrees lo t') (hlo : lo ≤ lo')
    (ht : t.Extends t') : T.Agrees lo' t := by
  intro i hi hlt
  rw [h i (Nat.le_trans hlo hi) (Nat.lt_of_lt_of_le hlt ht.size_le), ht.get_eq hlt]

theorem Agrees.mono {T t : ScopeTable} {lo lo' : Nat} (h : T.Agrees lo t) (hlo : lo ≤ lo') :
    T.Agrees lo' t :=
  h.earlier hlo (.refl t)

end ScopeTable

namespace Expr

open ScopeTable

mutual

/-- Scoping an expression adds scopes, and the tree fits every table that has them. -/
theorem inScope_scopedIn {s : Nat} : ∀ (e : Expr Position) {t : ScopeTable}, s < t.size →
    t.Extends (e.inScope s t).2 ∧
      ∀ T : ScopeTable, T.Agrees t.size (e.inScope s t).2 → (e.inScope s t).1.ScopedIn T s
  | .number pos value, t, _ => ⟨.refl t, fun _ _ => rfl⟩
  | .var pos name, t, _ => ⟨.refl t, fun _ _ => rfl⟩
  | .tuple pos items, t, hs => by
    obtain ⟨hext, hitems⟩ := inScopeItems_allScopedIn items hs
    exact ⟨hext, fun T hT => ⟨rfl, hitems T hT⟩⟩
  | .call pos f x, t, hs => by
    obtain ⟨hf, hscoped⟩ := inScope_scopedIn f hs
    obtain ⟨hx, hscoped'⟩ := inScope_scopedIn x (Nat.lt_of_lt_of_le hs hf.size_le)
    exact ⟨hf.trans hx, fun T hT =>
      ⟨rfl, hscoped T (hT.earlier (Nat.le_refl _) hx), hscoped' T (hT.mono hf.size_le)⟩⟩
  | .function pos param body, t, hs => by
    have hsize : ((t.child s).2.bind t.size param).size = t.size + 1 := by simp
    have hinner : ((t.child s).2.bind t.size param).get t.size = ⟨some s, none, [param]⟩ := by
      rw [get_bind_self _ _ (by simp), get_child_self]
      rfl
    have hchild : t.Extends ((t.child s).2.bind t.size param) :=
      ⟨by omega, fun hi => by rw [get_bind_of_ne _ _ (Nat.ne_of_lt hi), get_child_of_lt _ hi]⟩
    obtain ⟨hext, hbody⟩ := inScope_scopedIn body (show t.size < _ by rw [hsize]; omega)
    refine ⟨hchild.trans hext, fun T hT => ⟨rfl, t.size, ?_, hs, hbody T (hT.mono (by omega))⟩⟩
    exact (hT.earlier (Nat.le_refl _) hext _ (Nat.le_refl _) (by omega)).trans hinner
  | .group pos e, t, hs => by
    obtain ⟨hext, hscoped⟩ := inScope_scopedIn e hs
    exact ⟨hext, fun T hT => ⟨rfl, hscoped T hT⟩⟩

theorem inScopeItems_allScopedIn {s : Nat} : ∀ (items : List (Expr Position)) {t : ScopeTable},
    s < t.size →
    t.Extends (inScopeItems s items t).2 ∧
      ∀ T : ScopeTable, T.Agrees t.size (inScopeItems s items t).2 →
        AllScopedIn T s (inScopeItems s items t).1
  | [], t, _ => ⟨.refl t, fun _ _ => trivial⟩
  | e :: rest, t, hs => by
    obtain ⟨he, hscoped⟩ := inScope_scopedIn e hs
    obtain ⟨hrest, hscoped'⟩ := inScopeItems_allScopedIn rest (Nat.lt_of_lt_of_le hs he.size_le)
    exact ⟨he.trans hrest, fun T hT =>
      ⟨hscoped T (hT.earlier (Nat.le_refl _) hrest), hscoped' T (hT.mono he.size_le)⟩⟩

end

end Expr

namespace Assignment

open ScopeTable

@[simp] theorem name_inScope (s : Nat) (a : Assignment Position) (t : ScopeTable) :
    (a.inScope s t).1.name = a.name := by
  cases a
  rfl

theorem map_name_inScopeAll (s : Nat) (as : List (Assignment Position)) (t : ScopeTable) :
    (inScopeAll s as t).1.map name = as.map name := by
  induction as generalizing t with
  | nil => rfl
  | cons a rest ih =>
    change (a.inScope s t).1.name :: (inScopeAll s rest _).1.map name = _
    rw [ih, name_inScope]
    rfl

mutual

/-- Scoping an assignment adds scopes, and the tree fits every table that has them. -/
theorem inScope_scopedIn {s : Nat} : ∀ (a : Assignment Position) {t : ScopeTable}, s < t.size →
    t.Extends (a.inScope s t).2 ∧
      ∀ T : ScopeTable, T.Agrees t.size (a.inScope s t).2 → (a.inScope s t).1.ScopedIn T s
  | .mk pos name value clauses, t, hs => by
    have hchild := t.extends_child s
    have hown : t.size < (t.child s).2.size := by simp
    obtain ⟨hvalue, hscoped⟩ := Expr.inScope_scopedIn value hown
    have hlt := Nat.lt_of_lt_of_le hown hvalue.size_le
    obtain ⟨hsize, hget, hother, hclauses⟩ := inScopeAll_allScopedIn clauses hlt
    have hle := (hchild.trans hvalue).size_le
    refine ⟨⟨Nat.le_trans hle hsize, fun hi => ?_⟩, fun T hT => ⟨rfl, ?_, hs, ?_, ?_⟩⟩
    · exact (hother _ (Nat.lt_of_lt_of_le hi hle) (Nat.ne_of_lt hi)).trans
        ((hchild.trans hvalue).get_eq hi)
    · refine (hT t.size (Nat.le_refl _) (Nat.lt_of_lt_of_le hlt hsize)).trans (hget.trans ?_)
      rw [hvalue.get_eq hown, get_child_self, map_name_inScopeAll]
      rfl
    · refine hscoped T fun i hi hilt => ?_
      rw [size_child] at hi
      exact (hT i (by omega) (Nat.lt_of_lt_of_le hilt hsize)).trans
        (hother i hilt (by omega))
    · exact hclauses T (hT.mono hle)

/-- Scoping assignments adds scopes and binds their names in the scope they stand in. -/
theorem inScopeAll_allScopedIn {s : Nat} : ∀ (as : List (Assignment Position)) {t : ScopeTable},
    s < t.size →
    t.size ≤ (inScopeAll s as t).2.size ∧
      (inScopeAll s as t).2.get s = { t.get s with names := (t.get s).names ++ as.map name } ∧
      (∀ i < t.size, i ≠ s → (inScopeAll s as t).2.get i = t.get i) ∧
      ∀ T : ScopeTable, T.Agrees t.size (inScopeAll s as t).2 →
        AllScopedIn T s (inScopeAll s as t).1
  | [], t, _ => by
    refine ⟨Nat.le_refl _, ?_, fun _ _ _ => rfl, fun _ _ => trivial⟩
    rw [List.map_nil, List.append_nil]
    rfl
  | a :: rest, t, hs => by
    obtain ⟨ha, hscoped⟩ := inScope_scopedIn a hs
    have hlt := Nat.lt_of_lt_of_le hs ha.size_le
    obtain ⟨hsize, hget, hother, hrest⟩ :=
      inScopeAll_allScopedIn rest (show s < ((a.inScope s t).2.bind s (a.inScope s t).1.name).size by
        rw [size_bind]; exact hlt)
    rw [size_bind] at hsize hother hrest
    -- a scope of the assignment itself is not the one that its name is bound in
    have hkept : ∀ i < (a.inScope s t).2.size, i ≠ s →
        (inScopeAll s (a :: rest) t).2.get i = (a.inScope s t).2.get i := fun i hi hne =>
      (hother i hi hne).trans (get_bind_of_ne _ _ hne)
    refine ⟨Nat.le_trans ha.size_le hsize, ?_, fun i hi hne => ?_, fun T hT => ⟨?_, ?_⟩⟩
    · refine hget.trans ?_
      rw [get_bind_self _ _ hlt, ha.get_eq hs, name_inScope, List.map_cons, List.append_assoc]
      rfl
    · rw [hkept i (Nat.lt_of_lt_of_le hi ha.size_le) hne, ha.get_eq hi]
    · refine hscoped T fun i hi hilt => ?_
      rw [← hkept i hilt (by omega)]
      exact hT i hi (Nat.lt_of_lt_of_le hilt hsize)
    · exact hrest T (hT.mono ha.size_le)

end

end Assignment

namespace Program

/-- The scopes of a program: that of the built-ins, that of the globals, and one for everything in between. The
trees fit every table that differs from it in the scope of the built-ins only. -/
structure WellScoped (p : Program) : Prop where
  get_builtins : p.scopes.get ScopeTable.builtins = ⟨none, some .builtinScope, []⟩
  get_globals : p.scopes.get ScopeTable.globals =
    ⟨some ScopeTable.builtins, some .globalScope, p.assignments.map Assignment.name⟩
  globals_lt : ScopeTable.globals < p.scopes.size
  scopedIn : ∀ T : ScopeTable, (∀ s, s ≠ ScopeTable.builtins → T.get s = p.scopes.get s) →
    Assignment.AllScopedIn T ScopeTable.globals p.assignments

theorem wellScoped_ofAssignments (as : List (Assignment Position)) : (ofAssignments as).WellScoped := by
  have hglobals : ScopeTable.globals < ScopeTable.initial.size := by decide
  obtain ⟨hsize, hget, hother, hscoped⟩ := Assignment.inScopeAll_allScopedIn as hglobals
  refine ⟨hother ScopeTable.builtins (by decide) (by decide), hget.trans ?_,
    Nat.lt_of_lt_of_le hglobals hsize, fun T hT => hscoped T fun i hi _ => hT i ?_⟩
  · rw [show (ofAssignments as).assignments = (Assignment.inScopeAll _ as _).1 from rfl,
      Assignment.map_name_inScopeAll]
    rfl
  · rintro rfl
    exact absurd hi (by decide)

end Program

end Lamcode
