import Lamcode.Scope.Program
import Lamcode.Tree.Read

/-!
# Lamcode.Scope.Read — reading a program with its scopes

A program is read in one pass: a scope is opened where the reader comes to an assignment or a function
literal, and a name is bound as soon as it is known. The name of a function's parameter is known in front of
its body, that of a clause behind the clause. The readers take the scope that they read in and the table as
it is, and return the table as they leave it.
-/

namespace Lamcode

/-- Applies a function to an argument in the scope `s`. Where the argument is itself an application, the
applications are made anew, each one in `s` and at the position of the function. -/
def Expr.applyIn (s : Nat) (f : Expr Site) : Expr Site → Expr Site
  | .call _ inner last => .call ⟨s, f.mark.pos⟩ (applyIn s f inner) last
  | argument => .call ⟨s, f.mark.pos⟩ f argument

namespace Read

mutual
/-- Reads a value in the scope `s`. -/
def valueIn (last : Position) (margin s : Nat) (t : ScopeTable) (ts : List Lexeme) :
    Except ReadError (Parsed ts (Expr Site × ScopeTable)) :=
  if statementEnds margin ts then fail last .value ts
  else
    match ts with
    | ⟨.openBracket, pos⟩ :: ⟨.closeBracket, _⟩ :: _ => .ok (Parsed.one (.tuple ⟨s, pos⟩ [], t)).behind
    | ⟨.openBracket, pos⟩ :: rest => do
      let inside ← itemsIn last margin s t rest
      return inside.behind.map fun (items, t) => (.tuple ⟨s, pos⟩ items, t)
    | ⟨.dollar, pos⟩ :: rest => do
      let inner ← valueIn last margin s t rest
      return inner.behind.map fun (e, t) => (.group ⟨s, pos⟩ e, t)
    | ts => do
      let callee ← callableIn last margin s t ts
      have := callee.shorter
      if argumentFollows margin callee.value.1.mark.pos.indent callee.rest then
        let argument ← valueIn last margin s callee.value.2 callee.rest
        return (callee.after argument).map fun (x, t) => (callee.value.1.applyIn s x, t)
      else return callee
termination_by 3 * ts.length + 1

/-- Reads what can be applied in the scope `s`. The body of a function literal stands in a scope of its
own, where the parameter is bound. -/
def callableIn (last : Position) (margin s : Nat) (t : ScopeTable) (ts : List Lexeme) :
    Except ReadError (Parsed ts (Expr Site × ScopeTable)) :=
  match ts with
  | ⟨.name x, pos⟩ :: ⟨.arrow, _⟩ :: rest => do
    let (inner, t) := t.child s
    let body ← valueIn last margin inner (t.bind inner x) rest
    return body.behind.behind.map fun (e, t) => (.function ⟨s, pos⟩ x e, t)
  | ⟨.name x, pos⟩ :: _ => .ok (.one (.var ⟨s, pos⟩ x, t))
  | ⟨.number n, pos⟩ :: _ => .ok (.one (.number ⟨s, pos⟩ n, t))
  | ⟨.openParen, pos⟩ :: rest => do
    let inner ← valueIn last margin s t rest
    match h : inner.rest with
    | ⟨.closeParen, _⟩ :: _ => return (inner.past h).behind.map fun (e, t) => (.group ⟨s, pos⟩ e, t)
    | other => fail last .closeParen other
  | ts => fail last .value ts
termination_by 3 * ts.length

/-- Reads the items of a tuple in the scope `s`. -/
def itemsIn (last : Position) (margin s : Nat) (t : ScopeTable) (ts : List Lexeme) :
    Except ReadError (Parsed ts (List (Expr Site) × ScopeTable)) := do
  let item ← valueIn last margin s t ts
  match h : item.rest with
  | ⟨.comma, _⟩ :: rest =>
    have : rest.length < ts.length := (item.past h).shorter
    let more ← itemsIn last margin s item.value.2 rest
    return ((item.past h).after more).map fun (items, t) => (item.value.1 :: items, t)
  | ⟨.closeBracket, _⟩ :: _ => return (item.past h).map fun (e, t) => ([e], t)
  | other => fail last .tupleSeparator other
termination_by 3 * ts.length + 2
end

mutual
/-- Reads an assignment in the scope `s`. It opens a scope of its own, in which its value and its clauses
are read. -/
def assignmentIn (last : Position) (s : Nat) (t : ScopeTable) (ts : List Lexeme) :
    Except ReadError (Parsed ts (Assignment Site Header × ScopeTable)) :=
  match ts with
  | ⟨.name x, pos⟩ :: ⟨.equals, _⟩ :: rest => do
    let (own, t) := t.child s
    let v ← valueIn last pos.indent own t rest
    match h : v.rest with
    | ⟨.semicolon, _⟩ :: _ =>
      return (v.past h).behind.behind.map fun (e, t) => (.mk ⟨⟨s, pos⟩, own⟩ x e [], t)
    | ⟨.whereMark, _⟩ :: rest' =>
      have : rest'.length < rest.length := (v.past h).shorter
      let block ← clausesIn last pos own v.value.2 rest'
      return ((v.past h).after block).behind.behind.map fun (clauses, t) =>
        (.mk ⟨⟨s, pos⟩, own⟩ x v.value.1 clauses, t)
    | _ => return v.behind.behind.map fun (e, t) => (.mk ⟨⟨s, pos⟩, own⟩ x e [], t)
  | ⟨.name _, _⟩ :: rest => fail last .equals rest
  | ts => fail last .name ts
termination_by 2 * ts.length

/-- Reads the clauses of a `where` block in the scope `own` of the block's owner, and binds the name of each
one behind it. -/
def clausesIn (last owner : Position) (own : Nat) (t : ScopeTable) (ts : List Lexeme) :
    Except ReadError (Parsed ts (List (Assignment Site Header) × ScopeTable)) := do
  let clause ← assignmentIn last own t ts
  have := clause.shorter
  let t := clause.value.2.bind own clause.value.1.name
  if clauseFollows owner clause.value.1.mark.pos clause.rest then
    let more ← clausesIn last owner own t clause.rest
    return (clause.after more).map fun (clauses, t) => (clause.value.1 :: clauses, t)
  else return clause.map fun (c, _) => ([c], t)
termination_by 2 * ts.length + 1
end

/-- Reads assignments in the scope `s` to the end of the tokens, and binds the name of each one behind
it. -/
def assignmentsIn (last : Position) (s : Nat) (t : ScopeTable) (ts : List Lexeme) :
    Except ReadError (List (Assignment Site Header) × ScopeTable) := do
  match ts with
  | [] => return ([], t)
  | l :: ts =>
    let a ← assignmentIn last s t (l :: ts)
    let (more, t) ← assignmentsIn last s (a.value.2.bind s a.value.1.name) a.rest
    return (a.value.1 :: more, t)
termination_by ts.length
decreasing_by exact a.shorter

end Read

/-- Reads a program from its tokens, with its scopes. -/
def Program.read (ts : List Lexeme) : Except ReadError Program := do
  let (assignments, scopes) ←
    Read.assignmentsIn ((ts.getLast?.map Lexeme.pos).getD Position.generated) ScopeTable.globals .initial ts
  return ⟨assignments, scopes⟩

end Lamcode
