import Lamcode.Tree.Basic
import Lamcode.Tree.Read

/-!
# Lamcode.Proofs.Tree.Plain — reading without scopes

Scopes do not bear on what is read, so the shape of the trees and their layout is a matter of these readers, which
leave the scopes out. `Program.read_eq` ties them to the reader of programs.
-/

namespace Lamcode

namespace Expr

variable {α : Type}

/-- Applies a function to an argument. Where the argument is itself an application, its innermost
function is the argument: what was read as `f (g a)` becomes `(f g) a`. Groups are left alone. -/
def apply (f : Expr α) : Expr α → Expr α
  | .call _ inner last => .call f.mark (apply f inner) last
  | argument => .call f.mark f argument

end Expr

namespace Read

mutual
/-- Reads a value: a tuple, a group behind `$`, or a function with its arguments. A tuple takes no
arguments. -/
def value (last : Position) (margin : Nat) (ts : List Lexeme) :
    Except ReadError (Parsed ts (Expr Position)) :=
  if statementEnds margin ts then fail last .value ts
  else
    match ts with
    | ⟨.openBracket, pos⟩ :: ⟨.closeBracket, _⟩ :: _ => .ok (Parsed.one (.tuple pos [])).behind
    | ⟨.openBracket, pos⟩ :: rest => do
      let inside ← items last margin rest
      return inside.behind.map (.tuple pos)
    | ⟨.dollar, pos⟩ :: rest => do
      let inner ← value last margin rest
      return inner.behind.map (.group pos)
    | ts => do
      let callee ← callable last margin ts
      have := callee.shorter
      if argumentFollows margin callee.value.mark.indent callee.rest then
        let argument ← value last margin callee.rest
        return (callee.after argument).map callee.value.apply
      else return callee
termination_by 3 * ts.length + 1

/-- Reads what can be applied: a variable, a function literal, a number or a group in parentheses. -/
def callable (last : Position) (margin : Nat) (ts : List Lexeme) :
    Except ReadError (Parsed ts (Expr Position)) :=
  match ts with
  | ⟨.name x, pos⟩ :: ⟨.arrow, _⟩ :: rest => do
    let body ← value last margin rest
    return body.behind.behind.map (.function pos x)
  | ⟨.name x, pos⟩ :: _ => .ok (.one (.var pos x))
  | ⟨.number n, pos⟩ :: _ => .ok (.one (.number pos n))
  | ⟨.openParen, pos⟩ :: rest => do
    let inner ← value last margin rest
    match h : inner.rest with
    | ⟨.closeParen, _⟩ :: _ => return (inner.past h).behind.map (.group pos)
    | other => fail last .closeParen other
  | ts => fail last .value ts
termination_by 3 * ts.length

/-- Reads the items of a tuple, at least one, and the bracket that closes it. -/
def items (last : Position) (margin : Nat) (ts : List Lexeme) :
    Except ReadError (Parsed ts (List (Expr Position))) := do
  let item ← value last margin ts
  match h : item.rest with
  | ⟨.comma, _⟩ :: rest =>
    have : rest.length < ts.length := (item.past h).shorter
    let more ← items last margin rest
    return ((item.past h).after more).map (item.value :: ·)
  | ⟨.closeBracket, _⟩ :: _ => return (item.past h).map ([·])
  | other => fail last .tupleSeparator other
termination_by 3 * ts.length + 2
end

mutual
/-- Reads an assignment, which a semicolon or a `where` block may end. -/
def assignment (last : Position) (ts : List Lexeme) :
    Except ReadError (Parsed ts (Assignment Position)) :=
  match ts with
  | ⟨.name x, pos⟩ :: ⟨.equals, _⟩ :: rest => do
    let v ← value last pos.indent rest
    match h : v.rest with
    | ⟨.semicolon, _⟩ :: _ => return (v.past h).behind.behind.map (.mk pos x · [])
    | ⟨.whereMark, _⟩ :: rest' =>
      have : rest'.length < rest.length := (v.past h).shorter
      let block ← clauses last pos rest'
      return ((v.past h).after block).behind.behind.map (.mk pos x v.value)
    | _ => return v.behind.behind.map (.mk pos x · [])
  | ⟨.name _, _⟩ :: rest => fail last .equals rest
  | ts => fail last .name ts
termination_by 2 * ts.length

/-- Reads the clauses of a `where` block, at least one. -/
def clauses (last owner : Position) (ts : List Lexeme) :
    Except ReadError (Parsed ts (List (Assignment Position))) := do
  let clause ← assignment last ts
  have := clause.shorter
  if clauseFollows owner clause.value.mark clause.rest then
    let more ← clauses last owner clause.rest
    return (clause.after more).map (clause.value :: ·)
  else return clause.map ([·])
termination_by 2 * ts.length + 1
end

/-- Reads assignments to the end of the tokens. -/
def assignments (last : Position) (ts : List Lexeme) :
    Except ReadError (List (Assignment Position)) := do
  match ts with
  | [] => return []
  | t :: ts =>
    let a ← assignment last (t :: ts)
    let more ← assignments last a.rest
    return a.value :: more
termination_by ts.length
decreasing_by exact a.shorter

/-- Reads a program from its tokens. -/
def program (ts : List Lexeme) : Except ReadError (List (Assignment Position)) :=
  assignments ((ts.getLast?.map Lexeme.pos).getD Position.generated) ts

end Read

end Lamcode
