import Lamcode.Proofs.Result
import Lamcode.Proofs.Tree.Inversion
import Lamcode.Token.Scan

/-!
# Lamcode.Proofs.Tree.Landmarks — a tree holds the source it was read from

Names, numbers and the marks that open a tuple or a group leave a landmark in the tree, each with its position. Reading
a tree in source order gives the landmarks of its tokens, all of them and in their order, although applications are
read from the right and then turned around (`Expr.apply`). `Expr.Spined` says what comes of the turning: applications
nest to the left and have the position of the atom they start with. The main statement is `program_landmarks`.
-/

namespace Lamcode

/-- What a token leaves in the tree. -/
inductive Landmark where
  | name (x : String)
  | number (n : Int)
  | tuple
  | group
  deriving DecidableEq

/-- The landmark of a token and where it is; the tokens that only separate others have none. -/
def Lexeme.landmark? : Lexeme → Option (Landmark × Position)
  | ⟨.name x, pos⟩ => some (.name x, pos)
  | ⟨.number n, pos⟩ => some (.number n, pos)
  | ⟨.openBracket, pos⟩ => some (.tuple, pos)
  | ⟨.openParen, pos⟩ | ⟨.dollar, pos⟩ => some (.group, pos)
  | _ => none

/-- The landmarks of tokens, in order. -/
def Lexeme.landmarks (ts : List Lexeme) : List (Landmark × Position) :=
  ts.filterMap landmark?

/-- Whether the token is a name or a number. -/
def Token.isLeaf : Token → Bool
  | .name _ | .number _ => true
  | _ => false

/-- The token of a landmark, if this is a name or a number. -/
def Landmark.leaf? : Landmark × Position → Option Lexeme
  | (.name x, pos) => some ⟨.name x, pos⟩
  | (.number n, pos) => some ⟨.number n, pos⟩
  | _ => none

/-! ## Trees in source order -/

namespace Expr

mutual

/-- The landmarks of an expression in source order. -/
def landmarks : Expr Position → List (Landmark × Position)
  | .number pos n => [(.number n, pos)]
  | .var pos x => [(.name x, pos)]
  | .tuple pos items => (.tuple, pos) :: landmarksOf items
  | .call _ f x => f.landmarks ++ x.landmarks
  | .function pos x body => (.name x, pos) :: body.landmarks
  | .group pos inner => (.group, pos) :: inner.landmarks

def landmarksOf : List (Expr Position) → List (Landmark × Position)
  | [] => []
  | e :: rest => e.landmarks ++ landmarksOf rest

end

/-- Whether the expression is an application. -/
def isCall : Expr Position → Bool
  | .call _ _ _ => true
  | _ => false

/-- The atom that an expression starts with: what is applied first, for an application. -/
def atom : Expr Position → Expr Position
  | .call _ f _ => f.atom
  | e => e

mutual

/-- Everywhere in the expression, an application is no argument and has the position of its first atom. -/
def Spined : Expr Position → Prop
  | .number _ _ | .var _ _ => True
  | .tuple _ items => SpinedAll items
  | .call pos f x => x.isCall = false ∧ pos = f.atom.mark ∧ f.Spined ∧ x.Spined
  | .function _ _ body => body.Spined
  | .group _ inner => inner.Spined

def SpinedAll : List (Expr Position) → Prop
  | [] => True
  | e :: rest => e.Spined ∧ SpinedAll rest

end

end Expr

namespace Assignment

mutual

/-- The landmarks of an assignment in source order: its name, its value and its clauses. -/
def landmarks : Assignment Position → List (Landmark × Position)
  | .mk pos x value clauses => (.name x, pos) :: value.landmarks ++ landmarksOf clauses

def landmarksOf : List (Assignment Position) → List (Landmark × Position)
  | [] => []
  | a :: rest => a.landmarks ++ landmarksOf rest

end

mutual

/-- The values in the assignment are `Expr.Spined`. -/
def Spined : Assignment Position → Prop
  | .mk _ _ value clauses => value.Spined ∧ SpinedAll clauses

def SpinedAll : List (Assignment Position) → Prop
  | [] => True
  | a :: rest => a.Spined ∧ SpinedAll rest

end

/-- The names and numbers of assignments in source order, each with its position. -/
def leavesOf (as : List (Assignment Position)) : List Lexeme :=
  (landmarksOf as).filterMap Landmark.leaf?

end Assignment

/-! ## Turning applications around -/

namespace Expr

theorem landmarks_apply (f : Expr Position) (x : Expr Position) :
    (f.apply x).landmarks = f.landmarks ++ x.landmarks := by
  induction x using apply.induct with
  | case1 pos inner last ih => rw [apply, landmarks, ih, landmarks, List.append_assoc]
  | case2 x hcall => rw [apply, landmarks]; exact hcall

theorem atom_of_not_isCall {f : Expr Position} (hf : f.isCall = false) : f.atom = f := by
  cases f <;> first | rfl | cases hf

/-- The atom of an application is what was applied in the first place, however far it was moved in. -/
theorem atom_apply {f : Expr Position} (hf : f.isCall = false) (x : Expr Position) : (f.apply x).atom = f := by
  induction x using apply.induct with
  | case1 pos inner last ih => rw [apply, atom, ih]
  | case2 x hcall => rw [apply, atom, atom_of_not_isCall hf]; exact hcall

theorem Spined.apply {f x : Expr Position} (hf : f.isCall = false) (hspined : f.Spined) (hx : x.Spined) :
    (f.apply x).Spined := by
  induction x using apply.induct with
  | case1 pos inner last ih =>
    obtain ⟨hlast, -, hinner, hspined'⟩ := hx
    rw [Expr.apply]
    exact ⟨hlast, by rw [atom_apply hf], ih hinner, hspined'⟩
  | case2 x hcall =>
    rw [Expr.apply]
    · refine ⟨?_, by rw [atom_of_not_isCall hf], hspined, hx⟩
      cases x <;> first | rfl | exact absurd rfl (hcall _ _ _)
    · exact hcall

end Expr

/-! ## What the readers keep -/

namespace Read

/-- The landmarks of the tokens are those of the expression and those of the tokens behind it. -/
def Keeps (ts : List Lexeme) (e : Expr Position) (rest : List Lexeme) : Prop :=
  Lexeme.landmarks ts = e.landmarks ++ Lexeme.landmarks rest ∧ e.Spined

def KeepsAll (ts : List Lexeme) (es : List (Expr Position)) (rest : List Lexeme) : Prop :=
  Lexeme.landmarks ts = Expr.landmarksOf es ++ Lexeme.landmarks rest ∧ Expr.SpinedAll es

/-- What is read from the tokens as a value or as the items of a tuple keeps their landmarks. -/
structure Faithful (last : Position) (margin : Nat) (ts : List Lexeme) : Prop where
  value : ∀ {e : Expr Position} {rest : List Lexeme},
    outcome (value last margin ts) = some (e, rest) → Keeps ts e rest
  items : ∀ {es : List (Expr Position)} {rest : List Lexeme},
    outcome (items last margin ts) = some (es, rest) → KeepsAll ts es rest

section

variable {last : Position} {margin : Nat} {ts rest : List Lexeme} {e : Expr Position}

theorem keeps_of_callable (ih : ∀ us : List Lexeme, us.length < ts.length → Faithful last margin us)
    (h : outcome (callable last margin ts) = some (e, rest)) : Keeps ts e rest ∧ e.isCall = false := by
  cases callableStep_of_outcome h with
  | @function x pos pos' us _ body hbody =>
    obtain ⟨hlandmarks, hspined⟩ := (ih us (Nat.lt_succ_of_lt (Nat.lt_succ_self _))).value hbody
    exact ⟨⟨congrArg ((Landmark.name x, pos) :: ·) hlandmarks, hspined⟩, rfl⟩
  | name hbare => exact ⟨⟨rfl, trivial⟩, rfl⟩
  | number => exact ⟨⟨rfl, trivial⟩, rfl⟩
  | @group pos pos' us _ inner hinner =>
    obtain ⟨hlandmarks, hspined⟩ := (ih us (Nat.lt_succ_self _)).value hinner
    exact ⟨⟨congrArg ((Landmark.group, pos) :: ·) hlandmarks, hspined⟩, rfl⟩

theorem keeps_of_value (ih : ∀ us : List Lexeme, us.length < ts.length → Faithful last margin us)
    (h : outcome (value last margin ts) = some (e, rest)) : Keeps ts e rest := by
  cases valueStep_of_outcome h with
  | unit hinside => exact ⟨rfl, trivial⟩
  | @tuple pos us _ es hinside hitems =>
    obtain ⟨hlandmarks, hspined⟩ := (ih us (Nat.lt_succ_self _)).items hitems
    exact ⟨congrArg ((Landmark.tuple, pos) :: ·) hlandmarks, hspined⟩
  | @dollar pos us _ inner hinside hinner =>
    obtain ⟨hlandmarks, hspined⟩ := (ih us (Nat.lt_succ_self _)).value hinner
    exact ⟨congrArg ((Landmark.group, pos) :: ·) hlandmarks, hspined⟩
  | alone hinside hcallee hends => exact (keeps_of_callable ih hcallee).1
  | applied hinside hcallee hfollows hargument =>
    obtain ⟨⟨hf, hfspined⟩, hcall⟩ := keeps_of_callable ih hcallee
    obtain ⟨hx, hxspined⟩ := (ih _ (length_lt_of_outcome hcallee)).value hargument
    refine ⟨?_, hfspined.apply hcall hxspined⟩
    rw [hf, hx, Expr.landmarks_apply, List.append_assoc]

theorem keepsAll_of_items {es : List (Expr Position)}
    (ih : ∀ us : List Lexeme, us.length < ts.length → Faithful last margin us)
    (h : outcome (items last margin ts) = some (es, rest)) : KeepsAll ts es rest := by
  cases itemsStep_of_outcome h with
  | @more pos _ us _ e es hitem hothers =>
    obtain ⟨he, hespined⟩ := keeps_of_value ih hitem
    have hshorter : us.length < ts.length := Nat.lt_of_succ_lt (length_lt_of_outcome hitem)
    obtain ⟨hes, hesspined⟩ := (ih us hshorter).items hothers
    refine ⟨?_, hespined, hesspined⟩
    rw [he, Expr.landmarksOf, List.append_assoc]
    exact congrArg (e.landmarks ++ ·) hes
  | one hitem =>
    obtain ⟨he, hespined⟩ := keeps_of_value ih hitem
    refine ⟨?_, hespined, trivial⟩
    rw [he, Expr.landmarksOf, Expr.landmarksOf, List.append_nil]
    rfl

end

theorem faithful (last : Position) (margin : Nat) (ts : List Lexeme) : Faithful last margin ts := by
  -- Each reader calls others on fewer tokens, or calls one that does.
  induction hlength : ts.length using Nat.strongRecOn generalizing ts with
  | ind n ih =>
    subst hlength
    have ih : ∀ us : List Lexeme, us.length < ts.length → Faithful last margin us := fun us h => ih _ h us rfl
    exact ⟨keeps_of_value ih, keepsAll_of_items ih⟩

/-! ## Assignments -/

/-- What is read from the tokens as an assignment or as a block of clauses keeps their landmarks. -/
structure FaithfulBlock (last : Position) (ts : List Lexeme) : Prop where
  assignment : ∀ {a : Assignment Position} {rest : List Lexeme}, outcome (assignment last ts) = some (a, rest) →
    Lexeme.landmarks ts = a.landmarks ++ Lexeme.landmarks rest ∧ a.Spined
  clauses : ∀ {owner : Position} {cs : List (Assignment Position)} {rest : List Lexeme},
    outcome (clauses last owner ts) = some (cs, rest) →
    Lexeme.landmarks ts = Assignment.landmarksOf cs ++ Lexeme.landmarks rest ∧ Assignment.SpinedAll cs

section

variable {last : Position} {ts rest : List Lexeme}

theorem cons_landmarks {x : String} {pos : Position} {e : Expr Position} {cs : List (Assignment Position)}
    {marks others : List (Landmark × Position)} (h : marks = e.landmarks ++ (Assignment.landmarksOf cs ++ others)) :
    (.name x, pos) :: marks = (Assignment.mk pos x e cs).landmarks ++ others := by
  rw [Assignment.landmarks, List.append_assoc, h]
  rfl

theorem landmarks_of_assignment (ih : ∀ us : List Lexeme, us.length < ts.length → FaithfulBlock last us)
    {a : Assignment Position} (h : outcome (assignment last ts) = some (a, rest)) :
    Lexeme.landmarks ts = a.landmarks ++ Lexeme.landmarks rest ∧ a.Spined := by
  cases assignmentStep_of_outcome h with
  | @closed x pos pos' pos'' us _ e hvalue =>
    obtain ⟨he, hspined⟩ := (faithful last pos.indent us).value hvalue
    exact ⟨cons_landmarks he, hspined, trivial⟩
  | @block x pos pos' pos'' us vs _ e cs hvalue hblock =>
    obtain ⟨he, hspined⟩ := (faithful last pos.indent us).value hvalue
    have hshorter : vs.length < (⟨.name x, pos⟩ :: ⟨.equals, pos'⟩ :: us : List Lexeme).length := by
      have := length_lt_of_outcome hvalue
      simp only [List.length_cons] at this ⊢
      omega
    obtain ⟨hcs, hcsspined⟩ := (ih vs hshorter).clauses hblock
    refine ⟨cons_landmarks ?_, hspined, hcsspined⟩
    rw [← hcs]
    exact he
  | @plain x pos pos' us _ e hvalue hends =>
    obtain ⟨he, hspined⟩ := (faithful last pos.indent us).value hvalue
    exact ⟨cons_landmarks he, hspined, trivial⟩

theorem landmarks_of_clauses (ih : ∀ us : List Lexeme, us.length < ts.length → FaithfulBlock last us)
    {owner : Position} {cs : List (Assignment Position)} (h : outcome (clauses last owner ts) = some (cs, rest)) :
    Lexeme.landmarks ts = Assignment.landmarksOf cs ++ Lexeme.landmarks rest ∧ Assignment.SpinedAll cs := by
  cases clausesStep_of_outcome h with
  | more hclause hfollows hothers =>
    obtain ⟨ha, haspined⟩ := landmarks_of_assignment ih hclause
    obtain ⟨hcs, hcsspined⟩ := (ih _ (length_lt_of_outcome hclause)).clauses hothers
    refine ⟨?_, haspined, hcsspined⟩
    rw [ha, Assignment.landmarksOf, List.append_assoc, hcs]
  | one hclause hends =>
    obtain ⟨ha, haspined⟩ := landmarks_of_assignment ih hclause
    refine ⟨?_, haspined, trivial⟩
    rw [ha, Assignment.landmarksOf, Assignment.landmarksOf, List.append_nil]

end

theorem faithfulBlock (last : Position) (ts : List Lexeme) : FaithfulBlock last ts := by
  induction hlength : ts.length using Nat.strongRecOn generalizing ts with
  | ind n ih =>
    subst hlength
    have ih : ∀ us : List Lexeme, us.length < ts.length → FaithfulBlock last us := fun us h => ih _ h us rfl
    exact ⟨landmarks_of_assignment ih, landmarks_of_clauses ih⟩

theorem landmarks_of_assignments {last : Position} {ts : List Lexeme} {as : List (Assignment Position)}
    (h : assignments last ts = .ok as) :
    Lexeme.landmarks ts = Assignment.landmarksOf as ∧ Assignment.SpinedAll as := by
  replace h : outcomeAll (assignments last ts) = some (as, []) := by
    rw [h]
    rfl
  induction hlength : ts.length using Nat.strongRecOn generalizing ts as with
  | ind n ih =>
    subst hlength
    rcases ts with _ | ⟨t, ts⟩
    · rw [outcomeAll_assignments_nil] at h
      cases h
      exact ⟨rfl, trivial⟩
    · rw [outcomeAll_assignments_cons] at h
      obtain ⟨⟨a, us⟩, hassignment, h⟩ := Option.bind_eq_some_iff.1 h
      obtain ⟨⟨more, _⟩, hmore, ⟨⟩⟩ := Option.bind_eq_some_iff.1 h
      obtain ⟨ha, haspined⟩ := (faithfulBlock last _).assignment hassignment
      obtain ⟨hus, husspined⟩ := ih _ (length_lt_of_outcome hassignment) hmore rfl
      refine ⟨?_, haspined, husspined⟩
      rw [ha, hus, Assignment.landmarksOf]

theorem filterMap_leaf_landmarks (ts : List Lexeme) :
    (Lexeme.landmarks ts).filterMap Landmark.leaf? = ts.filter (·.token.isLeaf) := by
  rw [Lexeme.landmarks, List.filterMap_filterMap, ← List.filterMap_eq_filter]
  congr 1
  funext ⟨t, pos⟩
  cases t <;> rfl

/-- A program that was read holds the names and numbers of its tokens in their order and with their positions, and the
marks that open its tuples and groups between them; its applications nest to the left, each with the position of the
atom it starts with. -/
theorem program_landmarks {ts : List Lexeme} {as : List (Assignment Position)} (h : program ts = .ok as) :
    Assignment.leavesOf as = ts.filter (·.token.isLeaf) ∧
      Assignment.landmarksOf as = Lexeme.landmarks ts ∧ Assignment.SpinedAll as := by
  obtain ⟨hlandmarks, hspined⟩ := landmarks_of_assignments h
  refine ⟨?_, hlandmarks.symm, hspined⟩
  rw [Assignment.leavesOf, ← hlandmarks]
  exact filterMap_leaf_landmarks ts

/-- Applications that are turned around, one of them in a group behind `$` with a function in a tuple, and a block. -/
def chained : String :=
  "f = g 1 (h 2 3) $ k z [x => x y, 4] where\n  g = a => b => a\n  h = -5\n  k = k k k"

theorem program_chained :
    ∃ ts as, Scan.tokens chained = .ok ts ∧ program ts = .ok as ∧
      (Assignment.leavesOf as).map Lexeme.token = [.name "f", .name "g", .number 1, .name "h", .number 2, .number 3,
        .name "k", .name "z", .name "x", .name "x", .name "y", .number 4, .name "g", .name "a", .name "b", .name "a",
        .name "h", .number (-5), .name "k", .name "k", .name "k", .name "k"] ∧
      Assignment.leavesOf as = ts.filter (·.token.isLeaf) ∧
      Assignment.landmarksOf as = Lexeme.landmarks ts ∧ Assignment.SpinedAll as := by
  have h : (Scan.tokens chained).toOption.any (fun ts => (program ts).toOption.any fun as =>
      decide ((Assignment.leavesOf as).map Lexeme.token = [.name "f", .name "g", .number 1, .name "h", .number 2,
        .number 3, .name "k", .name "z", .name "x", .name "x", .name "y", .number 4, .name "g", .name "a", .name "b",
        .name "a", .name "h", .number (-5), .name "k", .name "k", .name "k", .name "k"])) = true := by
    decide +kernel
  obtain ⟨ts, hscan, h⟩ := exists_ok_of_any h
  obtain ⟨as, hread, h⟩ := exists_ok_of_any h
  exact ⟨ts, as, hscan, hread, of_decide_eq_true h, program_landmarks hread⟩

end Read

end Lamcode
