/-!
# Lamcode.Link.Label — names for places in a program under construction

A label stands for the address of one word, which is known only when the program is linked. Labels
are numbered by the table that hands them out; the first five are reserved and exist in every table.
-/

namespace Lamcode

/-- A label, by its number. -/
structure Label where
  index : Nat
  deriving DecidableEq

namespace Label

/-- The word that holds the initial scope pointer; the stack starts two words past it. -/
def stackBegin : Label := ⟨0⟩

/-- The word that holds the address of the next free heap word. -/
def ramPointer : Label := ⟨1⟩

/-- The scope record of the built-ins. -/
def builtinScope : Label := ⟨2⟩

/-- The scope record of the globals. -/
def globalScope : Label := ⟨3⟩

/-- The entry of the routine that allocates scope records. -/
def allocateScope : Label := ⟨4⟩

end Label

/-- The labels handed out so far, each with a name that need not be unique. -/
structure LabelTable where
  names : Array String
  deriving DecidableEq

namespace LabelTable

/-- The table of the reserved labels. -/
def reserved : LabelTable :=
  ⟨#["stackBegin", "ramPointer", "builtinScope", "globalScope", "allocateScope"]⟩

/-- How many labels were handed out. -/
def size (t : LabelTable) : Nat :=
  t.names.size

/-- Hands out the next label. -/
def fresh (t : LabelTable) (name : String) : Label × LabelTable :=
  (⟨t.size⟩, ⟨t.names.push name⟩)

/-- The name and the number of a label with `#` in between; a label of another table has the name
`?`. -/
def describe (t : LabelTable) (l : Label) : String :=
  t.names.getD l.index "?" ++ "#" ++ Nat.repr l.index

end LabelTable

end Lamcode
