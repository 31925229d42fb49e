import Lamcode.Source.Position

/-!
# Lamcode.Tree.Basic — expressions and assignments

Trees carry a mark of some type at every node: the reader marks a node with its position and with the
scope it stands in, and an assignment also with the scope it opens.
-/

namespace Lamcode

/-- An expression with a mark at every node. -/
inductive Expr (α : Type) where
  | number (mark : α) (value : Int)
  | var (mark : α) (name : String)
  | tuple (mark : α) (items : List (Expr α))
  | call (mark : α) (function argument : Expr α)
  | function (mark : α) (param : String) (body : Expr α)
  /-- A value in parentheses or behind `$`. -/
  | group (mark : α) (inner : Expr α)

/-- An assignment `name = value`, with the clauses of its `where` block. Its own mark may be of another
type than those of the expressions in it. -/
inductive Assignment (α : Type) (β : Type := α) where
  | mk (mark : β) (name : String) (value : Expr α) (clauses : List (Assignment α β))

namespace Expr

variable {α : Type}

/-- The mark at the root. -/
def mark : Expr α → α
  | .number a _ | .var a _ | .tuple a _ | .call a _ _ | .function a _ _ | .group a _ => a

mutual
/-- The names of all variables, in reading order. -/
def usedNames : Expr α → List String
  | .number _ _ => []
  | .var _ name => [name]
  | .tuple _ items => usedNamesOf items
  | .call _ f x => f.usedNames ++ x.usedNames
  | .function _ _ body => body.usedNames
  | .group _ inner => inner.usedNames

/-- The names of all variables of a list of expressions, in reading order. -/
def usedNamesOf : List (Expr α) → List String
  | [] => []
  | e :: rest => e.usedNames ++ usedNamesOf rest
end

end Expr

namespace Assignment

variable {α β : Type}

/-- The mark of the assignment. -/
def mark : Assignment α β → β
  | .mk a _ _ _ => a

/-- The name that is assigned. -/
def name : Assignment α β → String
  | .mk _ n _ _ => n

/-- The value that is assigned. -/
def value : Assignment α β → Expr α
  | .mk _ _ v _ => v

/-- The clauses of the `where` block. -/
def clauses : Assignment α β → List (Assignment α β)
  | .mk _ _ _ cs => cs

mutual
/-- The names of all variables: those of the value, then those of the clauses. -/
def usedNames : Assignment α β → List String
  | .mk _ _ value clauses => value.usedNames ++ usedNamesOf clauses

/-- The names of all variables of a list of assignments. -/
def usedNamesOf : List (Assignment α β) → List String
  | [] => []
  | a :: rest => a.usedNames ++ usedNamesOf rest
end

end Assignment

/-- The names in increasing order, each one once. -/
def sortedNames (names : List String) : List String :=
  (names.mergeSort fun a b => decide (a ≤ b)).eraseReps

end Lamcode
