import Lamcode.Failure
import Lamcode.Proofs.Tree.Plain
import Lamcode.Scope.Read

/-!
# Lamcode.Proofs.Scope.Threading — the scopes of a tree that is already there

The reader opens scopes and binds names while it reads. The same scopes come from a walk over the trees that the plain
reader returns (`inScope`), with the same table at every node: reading with scopes is reading without them and then
walking (`Program.read_eq`). So what a program looks like and how its scopes are nested are two separate matters.
-/

namespace Lamcode

namespace Expr

mutual
/-- Gives every node the scope it stands in, where the expression itself stands in `s`. -/
def inScope (s : Nat) : Expr Position → ScopeTable → Expr Site × ScopeTable
  | .number pos value, t => (.number ⟨s, pos⟩ value, t)
  | .var pos name, t => (.var ⟨s, pos⟩ name, t)
  | .tuple pos items, t =>
    let (items, t) := inScopeItems s items t
    (.tuple ⟨s, pos⟩ items, t)
  | .call pos f x, t =>
    let (f, t) := f.inScope s t
    let (x, t) := x.inScope s t
    (.call ⟨s, pos⟩ f x, t)
  | .function pos param body, t =>
    let (inner, t) := t.child s
    let (body, t) := body.inScope inner (t.bind inner param)
    (.function ⟨s, pos⟩ param body, t)
  | .group pos e, t =>
    let (e, t) := e.inScope s t
    (.group ⟨s, pos⟩ e, t)

/-- Gives every node of the expressions its scope, from left to right. -/
def inScopeItems (s : Nat) : List (Expr Position) → ScopeTable → List (Expr Site) × ScopeTable
  | [], t => ([], t)
  | e :: rest, t =>
    let (e, t) := e.inScope s t
    let (rest, t) := inScopeItems s rest t
    (e :: rest, t)
end

end Expr

namespace Assignment

mutual
/-- Gives every node its scope, where the assignment itself stands in `s`. -/
def inScope (s : Nat) : Assignment Position → ScopeTable → Assignment Site Header × ScopeTable
  | .mk pos name value clauses, t =>
    let (own, t) := t.child s
    let (value, t) := value.inScope own t
    let (clauses, t) := inScopeAll own clauses t
    (.mk ⟨⟨s, pos⟩, own⟩ name value clauses, t)

/-- Gives every node of the assignments its scope and binds their names in `s`, each one behind its
own assignment. -/
def inScopeAll (s : Nat) :
    List (Assignment Position) → ScopeTable → List (Assignment Site Header) × ScopeTable
  | [], t => ([], t)
  | a :: rest, t =>
    let (a, t) := a.inScope s t
    let (rest, t) := inScopeAll s rest (t.bind s a.name)
    (a :: rest, t)
end

end Assignment

/-- The program of a list of top-level assignments. -/
def Program.ofAssignments (assignments : List (Assignment Position)) : Program :=
  let (assignments, scopes) := Assignment.inScopeAll ScopeTable.globals assignments .initial
  ⟨assignments, scopes⟩

/-! ## Reading and walking -/

namespace Expr

theorem pos_mark_inScope (s : Nat) (e : Expr Position) (t : ScopeTable) : (e.inScope s t).1.mark.pos = e.mark := by
  cases e <;> rfl

/-- The applications that are made anew stand in the scope of the old ones, and what is applied is still walked from
left to right. -/
theorem inScope_apply (s : Nat) (f : Expr Position) (t : ScopeTable) : ∀ x : Expr Position,
    (f.apply x).inScope s t =
      (applyIn s (f.inScope s t).1 (x.inScope s (f.inScope s t).2).1, (x.inScope s (f.inScope s t).2).2)
  | .call pos inner last => by
    have hinner := inScope_apply s f t inner
    simp only [apply, inScope, applyIn, hinner, pos_mark_inScope]
  | .number .. | .var .. | .tuple .. | .function .. | .group .. => by
    simp only [apply, inScope, applyIn, pos_mark_inScope]

end Expr

theorem Assignment.pos_mark_inScope (s : Nat) (a : Assignment Position) (t : ScopeTable) :
    (a.inScope s t).1.mark.pos = a.mark := by
  cases a
  rfl

namespace Read

/-- A later step runs alike on a result and on its image. -/
theorem bind_eq_map {ε α α' β β' : Type} {x : Except ε α} {x' : Except ε α'} {g : α → α'} {m : β → β'}
    {k : α → Except ε β} {k' : α' → Except ε β'} (hx : x' = x.map g) (hk : ∀ a, k' (g a) = (k a).map m) :
    x' >>= k' = (x >>= k).map m := by
  subst hx
  cases x with
  | error e => rfl
  | ok a => exact hk a

theorem fail_eq_map {β γ : Type} (last : Position) (expected : Expected) (ts : List Lexeme) (m : β → γ) :
    fail last expected ts = (fail last expected ts).map m := by
  cases ts <;> rfl

variable {last : Position}

mutual

/-- Reading a value with scopes is reading it without them and then walking the tree. -/
theorem valueIn_eq (margin s : Nat) (t : ScopeTable) (ts : List Lexeme) :
    valueIn last margin s t ts = (value last margin ts).map (Parsed.map (Expr.inScope s · t)) := by
  rw [valueIn.eq_def, value.eq_def]
  split
  case isTrue => exact fail_eq_map ..
  case isFalse hends =>
    -- The first tokens tell a tuple and a group behind a dollar sign from what can be applied.
    rcases ts with _ | ⟨⟨tok, pos⟩, ts⟩
    · exact absurd rfl hends
    · cases tok
      case openBracket =>
        rcases ts with _ | ⟨⟨tok', pos'⟩, ts⟩
        · exact bind_eq_map (itemsIn_eq margin s t []) fun _ => rfl
        · cases tok'
          case closeBracket => rfl
          all_goals exact bind_eq_map (itemsIn_eq margin s t _) fun _ => rfl
      case dollar => exact bind_eq_map (valueIn_eq margin s t ts) fun _ => rfl
      all_goals
        refine bind_eq_map (callableIn_eq margin s t _) fun callee => ?_
        have : callee.rest.length ≤ ts.length := Nat.le_of_lt_succ callee.shorter
        show (if argumentFollows margin (callee.value.inScope s t).1.mark.pos.indent callee.rest then _ else _) = _
        rw [Expr.pos_mark_inScope]
        split
        · refine bind_eq_map (valueIn_eq margin s _ callee.rest) fun argument => ?_
          have happly := Expr.inScope_apply s callee.value t argument.value
          exact congrArg (fun x => Except.ok (Parsed.mk x argument.rest _)) happly.symm
        · rfl
termination_by 3 * ts.length + 1

theorem callableIn_eq (margin s : Nat) (t : ScopeTable) (ts : List Lexeme) :
    callableIn last margin s t ts = (callable last margin ts).map (Parsed.map (Expr.inScope s · t)) := by
  rw [callableIn.eq_def, callable.eq_def]
  rcases ts with _ | ⟨⟨tok, pos⟩, ts⟩
  · rfl
  · cases tok
    case name x =>
      rcases ts with _ | ⟨⟨tok', pos'⟩, ts⟩
      · rfl
      · cases tok'
        case arrow => exact bind_eq_map (valueIn_eq margin t.size _ ts) fun _ => rfl
        all_goals rfl
    case openParen =>
      refine bind_eq_map (valueIn_eq margin s t ts) fun inner => ?_
      obtain ⟨e, rest, hshorter⟩ := inner
      rcases rest with _ | ⟨⟨tok', pos'⟩, rest⟩
      · rfl
      · cases tok' <;> rfl
    all_goals rfl
termination_by 3 * ts.length

theorem itemsIn_eq (margin s : Nat) (t : ScopeTable) (ts : List Lexeme) :
    itemsIn last margin s t ts = (items last margin ts).map (Parsed.map (Expr.inScopeItems s · t)) := by
  rw [itemsIn, items]
  refine bind_eq_map (valueIn_eq margin s t ts) fun item => ?_
  obtain ⟨e, rest, hshorter⟩ := item
  rcases rest with _ | ⟨⟨tok, pos⟩, rest⟩
  · rfl
  · cases tok
    case comma =>
      have : rest.length < ts.length := Nat.lt_of_succ_lt hshorter
      exact bind_eq_map (itemsIn_eq margin s (e.inScope s t).2 rest) fun more => rfl
    all_goals rfl
termination_by 3 * ts.length + 2
end

mutual

/-- The same of an assignment. Its scope is opened in front of its value, and its clauses are read behind it. -/
theorem assignmentIn_eq (s : Nat) (t : ScopeTable) (ts : List Lexeme) :
    assignmentIn last s t ts = (assignment last ts).map (Parsed.map (Assignment.inScope s · t)) := by
  rw [assignmentIn.eq_def, assignment.eq_def]
  rcases ts with _ | ⟨⟨tok, pos⟩, ts⟩
  · rfl
  · cases tok
    case name x =>
      rcases ts with _ | ⟨⟨tok', pos'⟩, ts⟩
      · rfl
      · cases tok'
        case equals =>
          refine bind_eq_map (valueIn_eq pos.indent t.size _ ts) fun v => ?_
          obtain ⟨e, rest, hshorter⟩ := v
          rcases rest with _ | ⟨⟨tok'', pos''⟩, rest⟩
          · rfl
          · cases tok''
            case whereMark =>
              have : rest.length < ts.length := Nat.lt_of_succ_lt hshorter
              exact bind_eq_map (clausesIn_eq pos t.size _ rest) fun _ => rfl
            all_goals rfl
        all_goals rfl
    all_goals rfl
termination_by 2 * ts.length

theorem clausesIn_eq (owner : Position) (own : Nat) (t : ScopeTable) (ts : List Lexeme) :
    clausesIn last owner own t ts = (clauses last owner ts).map (Parsed.map (Assignment.inScopeAll own · t)) := by
  rw [clausesIn, clauses]
  refine bind_eq_map (assignmentIn_eq own t ts) fun clause => ?_
  have := clause.shorter
  show (if clauseFollows owner (clause.value.inScope own t).1.mark.pos clause.rest then _ else _) = _
  rw [Assignment.pos_mark_inScope]
  split
  · exact bind_eq_map (clausesIn_eq owner own _ clause.rest) fun _ => rfl
  · rfl
termination_by 2 * ts.length + 1

end

theorem assignmentsIn_eq (s : Nat) (t : ScopeTable) (ts : List Lexeme) :
    assignmentsIn last s t ts = (assignments last ts).map (Assignment.inScopeAll s · t) := by
  rcases ts with _ | ⟨l, ts⟩
  · rw [assignmentsIn, assignments]
    rfl
  · rw [assignmentsIn, assignments]
    refine bind_eq_map (assignmentIn_eq s t (l :: ts)) fun a => ?_
    have : a.rest.length ≤ ts.length := Nat.le_of_lt_succ a.shorter
    exact bind_eq_map (assignmentsIn_eq s _ a.rest) fun _ => rfl
termination_by ts.length

end Read

namespace Program

/-- The program that is read is that of the trees, each node in its scope. -/
theorem read_eq (ts : List Lexeme) : read ts = (Read.program ts).map ofAssignments := by
  unfold read Read.program
  rw [Read.assignmentsIn_eq]
  cases Read.assignments _ ts <;> rfl

theorem parse_eq (source : String) :
    parse source =
      match Scan.tokens source with
      | .error e => .error (.scan e)
      | .ok ts =>
        match Read.program ts with
        | .error e => .error (.read e)
        | .ok as => .ok (ofAssignments as) := by
  unfold parse
  cases Scan.tokens source with
  | error e => rfl
  | ok ts =>
    dsimp only
    rw [read_eq]
    cases Read.program ts <;> rfl

theorem exists_of_read {ts : List Lexeme} {p : Program} (h : read ts = .ok p) :
    ∃ as, Read.program ts = .ok as ∧ p = ofAssignments as := by
  rw [read_eq] at h
  cases hread : Read.program ts with
  | error e =>
    rw [hread] at h
    cases h
  | ok as =>
    rw [hread] at h
    cases h
    exact ⟨as, rfl, rfl⟩

theorem exists_of_parse {source : String} {p : Program} (h : parse source = .ok p) :
    ∃ ts as, Scan.tokens source = .ok ts ∧ Read.program ts = .ok as ∧ p = ofAssignments as := by
  unfold parse at h
  split at h
  · cases h
  · next ts hscan =>
    split at h
    · cases h
    · next hread =>
      cases h
      obtain ⟨as, has, rfl⟩ := exists_of_read hread
      exact ⟨ts, as, hscan, has, rfl⟩

end Program

end Lamcode
