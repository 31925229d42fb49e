import Lamcode.Text.Json
import Lamcode.Tree.Basic

/-!
# Lamcode.Tree.Json — trees as JSON values

Marks are left out. Integers are strings, because they may have any size.
-/

namespace Lamcode

variable {α β : Type}

namespace Expr

mutual
/-- The expression as an object with one field, named for its kind. -/
def toJson : Expr α → Json
  | .number _ value => .obj [("Number", .str (Text.Numeral.write value))]
  | .var _ name => .obj [("Var", .str name)]
  | .tuple _ items => .obj [("Tuple", .arr (toJsonItems items))]
  | .call _ f x => .obj [("Call", .obj [("function", f.toJson), ("argument", x.toJson)])]
  | .function _ param body => .obj [("Function", .obj [("param", .str param), ("body", body.toJson)])]
  | .group _ inner => .obj [("Group", inner.toJson)]

/-- The expressions as JSON values. -/
def toJsonItems : List (Expr α) → List Json
  | [] => []
  | e :: rest => e.toJson :: toJsonItems rest
end

end Expr

namespace Assignment

mutual
/-- The assignment as an object. -/
def toJson : Assignment α β → Json
  | .mk _ name value clauses =>
    .obj [("name", .str name), ("value", value.toJson), ("wheres", .arr (toJsonAll clauses))]

/-- The assignments as JSON values. -/
def toJsonAll : List (Assignment α β) → List Json
  | [] => []
  | a :: rest => a.toJson :: toJsonAll rest
end

/-- A list of top-level assignments as an object. -/
def programJson (assignments : List (Assignment α β)) : Json :=
  .obj [("assignments", .arr (toJsonAll assignments))]

end Assignment

end Lamcode
