import Lamcode.Proofs.Result
import Lamcode.Proofs.Scope.Scoped

/-!
# Lamcode.Proofs.Scope.Mirror — one scope for each assignment and each function literal

Two kinds of nodes open a scope: an assignment, for the names of its clauses, and a function literal, for its
parameter. `opened` lists the scopes that the nodes of a tree opened, in reading order. The list is an interval that
starts at the size of the table before: no scope is shared between two nodes, and none is there that no node has
opened. With `ScopedIn`, which says where the nodes stand, this makes the table a mirror of the trees
(`mirrors_of_read`).
-/

namespace Lamcode

namespace Expr

mutual

/-- The scopes of the function bodies in the expression, in reading order. -/
def opened : Expr Site → List Nat
  | .number _ _ => []
  | .var _ _ => []
  | .tuple _ items => openedOf items
  | .call _ f x => f.opened ++ x.opened
  | .function _ _ body => body.mark.scope :: body.opened
  | .group _ e => e.opened

/-- The scopes of the function bodies in the expressions. -/
def openedOf : List (Expr Site) → List Nat
  | [] => []
  | e :: rest => e.opened ++ openedOf rest

end

@[simp] theorem scope_mark_inScope (s : Nat) (e : Expr Position) (t : ScopeTable) :
    (e.inScope s t).1.mark.scope = s := by
  cases e <;> rfl

end Expr

namespace Assignment

mutual

/-- The scopes of the assignment and of everything in it, in reading order: its own one, those in its value, and
those of its clauses. -/
def opened : Assignment Site Header → List Nat
  | .mk head _ value clauses => head.own :: (value.opened ++ openedOf clauses)

/-- The scopes of the assignments and of everything in them. -/
def openedOf : List (Assignment Site Header) → List Nat
  | [] => []
  | a :: rest => a.opened ++ openedOf rest

end

end Assignment

/-! ## Numbering -/

namespace ScopeTable

/-- The scopes `opened` are those that the second table has behind the first one, in order. -/
def Numbers (t : ScopeTable) (opened : List Nat) (t' : ScopeTable) : Prop :=
  t'.size = t.size + opened.length ∧ opened = List.range' t.size opened.length

namespace Numbers

variable {t t' t'' : ScopeTable} {xs ys : List Nat}

theorem refl (t : ScopeTable) : t.Numbers [] t :=
  ⟨rfl, rfl⟩

theorem append (h : t.Numbers xs t') (k : t'.Numbers ys t'') : t.Numbers (xs ++ ys) t'' := by
  obtain ⟨hsize, hxs⟩ := h
  obtain ⟨hsize', hys⟩ := k
  refine ⟨by rw [hsize', hsize, List.length_append]; omega, ?_⟩
  calc xs ++ ys = List.range' t.size xs.length ++ List.range' t'.size ys.length := by rw [← hxs, ← hys]
    _ = List.range' t.size (xs.length + ys.length) := by rw [hsize, List.range'_append_1]
    _ = List.range' t.size (xs ++ ys).length := by rw [List.length_append]

/-- Names in the scopes do not matter, only how many scopes there are. -/
theorem of_size_eq {u : ScopeTable} (hsize : u.size = t.size) (h : u.Numbers xs t') : t.Numbers xs t' := by
  unfold Numbers at h ⊢
  rwa [hsize] at h

theorem child (t : ScopeTable) (outer : Nat) : t.Numbers [t.size] (t.child outer).2 :=
  ⟨size_child t outer, rfl⟩

end Numbers

end ScopeTable

open ScopeTable

namespace Expr

mutual

/-- Scoping an expression opens one scope for each function literal in it. -/
theorem numbers_inScope (s : Nat) : ∀ (e : Expr Position) (t : ScopeTable),
    t.Numbers (e.inScope s t).1.opened (e.inScope s t).2
  | .number _ _, t => .refl t
  | .var _ _, t => .refl t
  | .tuple _ items, t => numbers_inScopeItems s items t
  | .call _ f x, t => (numbers_inScope s f t).append (numbers_inScope s x (f.inScope s t).2)
  | .function _ param body, t => by
    have hbody := numbers_inScope t.size body ((t.child s).2.bind t.size param)
    have hall := (Numbers.child t s).append (hbody.of_size_eq (size_bind _ _ _))
    show t.Numbers ((body.inScope t.size _).1.mark.scope :: _) _
    rw [scope_mark_inScope]
    exact hall
  | .group _ e, t => numbers_inScope s e t

theorem numbers_inScopeItems (s : Nat) : ∀ (items : List (Expr Position)) (t : ScopeTable),
    t.Numbers (openedOf (inScopeItems s items t).1) (inScopeItems s items t).2
  | [], t => .refl t
  | e :: rest, t => (numbers_inScope s e t).append (numbers_inScopeItems s rest (e.inScope s t).2)

end

end Expr

namespace Assignment

mutual

/-- Scoping an assignment opens its own scope and then those of its value and of its clauses. -/
theorem numbers_inScope (s : Nat) : ∀ (a : Assignment Position) (t : ScopeTable),
    t.Numbers (a.inScope s t).1.opened (a.inScope s t).2
  | .mk _ _ value clauses, t => by
    have hvalue := Expr.numbers_inScope t.size value (t.child s).2
    have hclauses := numbers_inScopeAll t.size clauses (value.inScope t.size (t.child s).2).2
    exact (Numbers.child t s).append (hvalue.append hclauses)

/-- Binding the name of an assignment behind it opens no scope. -/
theorem numbers_inScopeAll (s : Nat) : ∀ (as : List (Assignment Position)) (t : ScopeTable),
    t.Numbers (openedOf (inScopeAll s as t).1) (inScopeAll s as t).2
  | [], t => .refl t
  | a :: rest, t => by
    have ha := numbers_inScope s a t
    have hrest := numbers_inScopeAll s rest ((a.inScope s t).2.bind s (a.inScope s t).1.name)
    exact ha.append (hrest.of_size_eq (size_bind _ _ _))

end

end Assignment

namespace Program

theorem numbers_ofAssignments (as : List (Assignment Position)) :
    ScopeTable.initial.Numbers (Assignment.openedOf (ofAssignments as).assignments) (ofAssignments as).scopes :=
  Assignment.numbers_inScopeAll ScopeTable.globals as .initial

/-- The table of a program mirrors its trees: the scope of the built-ins binds nothing yet, that of the globals binds
the top-level names in order, every node stands in the scope it should, in a scope that binds just its names, and
the other scopes are those of the assignments and of the function bodies, one each, in reading order. -/
structure Mirrors (p : Program) : Prop where
  builtins : p.scopes.get ScopeTable.builtins = ⟨none, some .builtinScope, []⟩
  globals : p.scopes.get ScopeTable.globals =
    ⟨some ScopeTable.builtins, some .globalScope, p.assignments.map Assignment.name⟩
  sites : Assignment.AllScopedIn p.scopes ScopeTable.globals p.assignments
  opened : Assignment.openedOf p.assignments = List.range' 2 (p.scopes.size - 2)
  two_le_size : 2 ≤ p.scopes.size

/-- Whatever tokens a program is read from, its scopes mirror its trees. -/
theorem mirrors_of_read {ts : List Lexeme} {p : Program} (h : read ts = .ok p) : p.Mirrors := by
  obtain ⟨as, -, rfl⟩ := exists_of_read h
  have hscoped := wellScoped_ofAssignments as
  obtain ⟨hsize, hopened⟩ := numbers_ofAssignments as
  have htwo : ScopeTable.initial.size = 2 := rfl
  rw [htwo] at hsize hopened
  exact {
    builtins := hscoped.get_builtins
    globals := hscoped.get_globals
    sites := hscoped.scopedIn _ fun _ _ => rfl
    opened := by rwa [hsize, Nat.add_sub_cancel_left]
    two_le_size := by omega }

/-- Functions inside functions and inside clauses, an application of several arguments, and a name twice. -/
def nested : String :=
  "f = x => g x [x, y => y] where\n  g = a => b => f\n  g = f\nf = f 1 2"

theorem mirrors_nested :
    ∃ ts p, Scan.tokens nested = .ok ts ∧ read ts = .ok p ∧
      p.scopes.size = 10 ∧ (p.scopes.get ScopeTable.globals).names = ["f", "f"] ∧ p.Mirrors := by
  have h : (Scan.tokens nested).toOption.any (fun ts =>
      (read ts).toOption.any fun p =>
        decide (p.scopes.size = 10 ∧ (p.scopes.get ScopeTable.globals).names = ["f", "f"])) = true := by
    decide +kernel
  obtain ⟨ts, hscan, h⟩ := exists_ok_of_any h
  obtain ⟨p, hread, h⟩ := exists_ok_of_any h
  obtain ⟨hsize, hnames⟩ := of_decide_eq_true h
  exact ⟨ts, p, hscan, hread, hsize, hnames, mirrors_of_read hread⟩

end Program

end Lamcode
