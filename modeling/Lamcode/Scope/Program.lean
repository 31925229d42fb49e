import Lamcode.Scope.Table
import Lamcode.Tree.Basic

/-!
# Lamcode.Scope.Program — trees with their scopes

Each assignment opens a scope for the names of its `where` block, and its value stands in that scope;
each function literal opens a scope for its parameter, and its body stands in that one. Scopes are
numbered in the order in which they are opened when the source is read from left to right.
-/

namespace Lamcode

/-- Where a node stands: the scope in which its names resolve, and its position. -/
structure Site where
  scope : Nat
  pos : Position
  deriving DecidableEq

/-- Where an assignment stands, and the scope that it opens. -/
structure Header extends Site where
  own : Nat
  deriving DecidableEq

/-- A program: its assignments with their sites, and its scopes. -/
structure Program where
  assignments : List (Assignment Site Header)
  scopes : ScopeTable

namespace Program

/-- The names of all variables, in reading order. -/
def usedNames (p : Program) : List String :=
  Assignment.usedNamesOf p.assignments

/-- The names of all variables in increasing order, each one once. -/
def referencedNames (p : Program) : List String :=
  sortedNames p.usedNames

end Program

end Lamcode
