import Lamcode.Text.Numeral
import Lamcode.Tree.Basic

/-!
# Lamcode.Tree.Print — trees as source text

The printed form is source again: every application and every function literal stands in parentheses
of its own, so the order of application is explicit, and groups leave no trace.
-/

namespace Lamcode

variable {α β : Type}

namespace Expr

mutual
/-- The expression with explicit parentheses. -/
def print : Expr α → String
  | .number _ value => Text.Numeral.write value
  | .var _ name => name
  | .tuple _ items => "[" ++ printItems items ++ "]"
  | .call _ f x => "(" ++ f.print ++ " " ++ x.print ++ ")"
  | .function _ param body => "(" ++ param ++ " => " ++ body.print ++ ")"
  | .group _ inner => inner.print

/-- The expressions with a comma and a space between two of them. -/
def printItems : List (Expr α) → String
  | [] => ""
  | [e] => e.print
  | e :: rest => e.print ++ ", " ++ printItems rest
end

end Expr

namespace Assignment

/-- Two spaces for each level of depth. -/
def margin (depth : Nat) : String :=
  String.ofList (List.replicate (2 * depth) ' ')

mutual
/-- The assignment on a line of its own, its clauses below it and two levels deeper. -/
def print (depth : Nat) : Assignment α β → String
  | .mk _ name value [] => margin depth ++ name ++ " = " ++ value.print ++ "\n"
  | .mk _ name value (c :: cs) =>
    margin depth ++ name ++ " = " ++ value.print ++ "\n" ++ margin depth ++ "  where\n" ++
      c.print (depth + 2) ++ printAll (depth + 2) cs

/-- The assignments one below the other. -/
def printAll (depth : Nat) : List (Assignment α β) → String
  | [] => ""
  | a :: rest => a.print depth ++ printAll depth rest
end

end Assignment

end Lamcode
