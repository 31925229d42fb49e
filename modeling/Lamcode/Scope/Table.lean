import Lamcode.Link.Label

/-!
# Lamcode.Scope.Table — which names are visible where

Every scope but the outermost one has a scope around it. The two outermost ones, of the built-ins and
of the globals, have a record at a fixed address; every other scope stands for a record that is allocated
while the program runs. A name is resolved in the nearest scope that binds it, to the first slot with
that name. A scope is named by its number in the table, also before it has been opened.
-/

namespace Lamcode

/-- One scope: the scope around it, the label of its record if that has a fixed address, and the
names of its slots in order. -/
structure Scope where
  parent : Option Nat
  location : Option Label
  names : List String
  deriving DecidableEq

/-- Where a name lives, seen from the scope in which it was looked up. -/
inductive Resolution where
  /-- Slot `offset` of the record placed at `location`. -/
  | fixed (location : Label) (offset : Nat)
  /-- Slot `offset` of the record reached by following `levelsUp` parent pointers. -/
  | dynamic (levelsUp offset : Nat)
  deriving DecidableEq

/-- A slot of a scope, seen from that scope. -/
def Scope.slot (scope : Scope) (offset : Nat) : Resolution :=
  match scope.location with
  | some location => .fixed location offset
  | none => .dynamic 0 offset

/-- The same slot, seen from one scope further in. -/
def Resolution.fromChild : Resolution → Resolution
  | .fixed location offset => .fixed location offset
  | .dynamic levelsUp offset => .dynamic (levelsUp + 1) offset

/-- The scopes of a program. -/
structure ScopeTable where
  scopes : Array Scope
  deriving DecidableEq

namespace ScopeTable

/-- The scope of the built-ins. -/
def builtins : Nat := 0

/-- The scope of the globals. -/
def globals : Nat := 1

/-- The table of the two fixed scopes, with no names in them. -/
def initial : ScopeTable :=
  ⟨#[⟨none, some .builtinScope, []⟩, ⟨some builtins, some .globalScope, []⟩]⟩

/-- How many scopes there are. -/
def size (t : ScopeTable) : Nat :=
  t.scopes.size

/-- The scope with a number; outside the table an empty scope that nothing encloses. -/
def get (t : ScopeTable) (s : Nat) : Scope :=
  t.scopes.getD s ⟨none, none, []⟩

/-- Opens a dynamic scope inside the scope `outer`. -/
def child (t : ScopeTable) (outer : Nat) : Nat × ScopeTable :=
  (t.size, ⟨t.scopes.push ⟨some outer, none, []⟩⟩)

/-- Adds a slot with a name behind the slots of a scope. -/
def bind (t : ScopeTable) (s : Nat) (name : String) : ScopeTable :=
  ⟨t.scopes.modify s fun scope => { scope with names := scope.names ++ [name] }⟩

/-- Looks a name up in a scope and then in the scopes around it, nearest first, `limit` scopes in
all. -/
def resolveWithin (t : ScopeTable) (name : String) : (limit : Nat) → (s : Nat) → Option Resolution
  | 0, _ => none
  | limit + 1, s =>
    match (t.get s).names.idxOf? name with
    | some offset => some ((t.get s).slot offset)
    | none =>
      match (t.get s).parent with
      | none => none
      | some outer => (t.resolveWithin name limit outer).map Resolution.fromChild

/-- Looks a name up in a scope and then in the scopes around it, nearest first. The way out comes to the
nearest scope with the name before it comes to any scope twice, so it is enough to look at as many
scopes as there are. -/
def resolve (t : ScopeTable) (s : Nat) (name : String) : Option Resolution :=
  t.resolveWithin name t.size s

end ScopeTable

end Lamcode
