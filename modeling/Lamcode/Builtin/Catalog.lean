/-!
# Lamcode.Builtin.Catalog — the built-in names
-/

namespace Lamcode

/-- The built-ins, in catalog order. -/
inductive Builtin where
  | unit
  | print
  | succ
  | add
  | mult
  | truth
  | falsity
  | sequence
  | eq
  | neq
  | lt
  | sub
  | get
  | fst
  | snd
  | mod
  | div
  | input
  deriving DecidableEq

namespace Builtin

/-- The catalog. -/
def all : List Builtin :=
  [.unit, .print, .succ, .add, .mult, .truth, .falsity, .sequence, .eq, .neq, .lt, .sub, .get, .fst, .snd,
    .mod, .div, .input]

/-- The name of a built-in in source text. -/
def name : Builtin → String
  | .unit => "_"
  | .print => "print"
  | .succ => "succ"
  | .add => "add"
  | .mult => "mult"
  | .truth => "true"
  | .falsity => "false"
  | .sequence => "do"
  | .eq => "eq"
  | .neq => "neq"
  | .lt => "lt"
  | .sub => "sub"
  | .get => "get"
  | .fst => "fst"
  | .snd => "snd"
  | .mod => "mod"
  | .div => "div"
  | .input => "input"

/-- The parameters of a built-in, outermost first. The unit value has none and is no function. -/
def params : Builtin → List String
  | .unit => []
  | .print | .sequence | .input => ["x"]
  | .succ => ["n"]
  | .add | .mult | .eq | .neq | .lt | .sub => ["a", "b"]
  | .truth | .falsity => ["first", "second"]
  | .get => ["pos", "tup"]
  | .fst | .snd => ["t"]
  | .mod | .div => ["b", "a"]

/-- The other built-ins that the body of a built-in names. -/
def requires : Builtin → List Builtin
  | .print => [.unit]
  | .eq | .neq | .lt => [.truth, .falsity]
  | _ => []

/-- What a built-in requires requires nothing itself. -/
theorem requires_of_mem_requires {b c : Builtin} (h : c ∈ b.requires) : c.requires = [] := by
  have all_flat : ∀ d ∈ b.requires, d.requires = [] := by cases b <;> decide
  exact all_flat c h

/-- The built-in with a name. -/
def ofName? (name : String) : Option Builtin :=
  all.find? fun b => b.name == name

/-- The built-ins with one of the names and all that these require, in catalog order. -/
def chosen (names : List String) : List Builtin :=
  all.filter fun b =>
    names.contains b.name ||
      all.any fun c => names.contains c.name && c.requires.contains b

end Builtin

end Lamcode
