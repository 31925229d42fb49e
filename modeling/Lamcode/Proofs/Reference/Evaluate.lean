import Lamcode.Builtin.Catalog
import Lamcode.Machine.Host
import Lamcode.Tree.Basic

/-!
# Lamcode.Proofs.Reference.Evaluate — what programs mean

A strict evaluator for trees, from left to right, that knows nothing of code and machines. Numbers are
unbounded; a function literal captures the scopes around it; every assignment opens a frame with one slot per clause
of its `where` block, all 0 at first, and fills them in clause order before it evaluates the value. The globals are
the slots of frame 0. A repeated name fills the first slot of that name again.

Evaluation can end without a value in three ways. It is stuck where the language gives no meaning. It is out
of memory where it would need more than the `Room` it is given: frames of calls, assignments and tuples nest in the
stack, records, closures and tuples are never given back to the heap. And it is out of fuel where the bound on its depth
is used up.
-/

namespace Lamcode.Reference

variable {α μ : Type}

mutual

/-- A value. A built-in carries the arguments it was applied to, fewer than it takes; the unit value is the
built-in that takes none. -/
inductive Value (α : Type) where
  | int (n : Int)
  | tuple (items : List (Value α))
  | closure (env : List (Binding α)) (param : String) (body : Expr α)
  | builtin (b : Builtin) (args : List (Value α))

/-- One scope around an expression: a parameter with its argument, or the names of a block of slots with the
number of the frame that holds them. -/
inductive Binding (α : Type) where
  | param (name : String) (value : Value α)
  | block (names : List String) (frame : Nat)

end

/-- The scopes around an expression, nearest first. Outside of all of them are the built-ins. -/
abbrev Env (α : Type) := List (Binding α)

/-- What evaluation changes: the frames opened so far, what is left to read and has been written, and the words of
heap in use. -/
structure State (α : Type) where
  frames : List (List (Value α))
  queue : Queue
  heap : Nat

/-- Why evaluation ended without a value. -/
inductive Stop where
  | stuck
  | outOfMemory
  | outOfFuel
  deriving DecidableEq

/-- How many words the stack and the heap may take. -/
structure Room where
  stack : Nat
  heap : Nat

abbrev Eval (α β : Type) := StateT (State α) (Except Stop) β

/-! ## Memory -/

/-- The stack takes `n` words. -/
def touch (room : Room) (n : Nat) : Eval α Unit :=
  if n ≤ room.stack then pure () else throw .outOfMemory

/-- The heap takes `n` words more. -/
def allocate (room : Room) (n : Nat) : Eval α Unit := do
  let s ← get
  if s.heap + n ≤ room.heap then set { s with heap := s.heap + n } else throw .outOfMemory

/-- Opens a frame of `n` slots. -/
def openFrame (room : Room) (n : Nat) : Eval α Nat := do
  allocate room (1 + n)
  modifyGet fun s => (s.frames.length, { s with frames := s.frames ++ [List.replicate n (.int 0)] })

/-- The content of a slot. -/
def slot (frame index : Nat) : Eval α (Value α) := do
  let s ← get
  match s.frames[frame]? with
  | none => throw .stuck
  | some slots =>
    match slots[index]? with
    | none => throw .stuck
    | some v => pure v

/-- Fills a slot. -/
def fill (frame index : Nat) (v : Value α) : Eval α Unit :=
  modify fun s => { s with frames := s.frames.modify frame (·.set index v) }

/-- The value of a name: that of the nearest scope that binds it, in a block the first slot of that name. -/
def lookup (name : String) : Env α → Eval α (Value α)
  | [] =>
    match Builtin.ofName? name with
    | none => throw .stuck
    | some b => pure (.builtin b [])
  | .param x v :: env => if x = name then pure v else lookup name env
  | .block names frame :: env =>
    match names.idxOf? name with
    | none => lookup name env
    | some i => slot frame i

/-- Assigns to a name of the nearest block. -/
def assign (name : String) (v : Value α) : Env α → Eval α Unit
  | .block names frame :: _ =>
    match names.idxOf? name with
    | none => throw .stuck
    | some i => fill frame i v
  | _ => throw .stuck

/-! ## Built-ins -/

/-- The built-ins that stand for the truth values. -/
def ofBool (b : Bool) : Value α :=
  .builtin (if b then .truth else .falsity) []

/-- The element at an index. -/
def element (items : List (Value α)) (index : Int) : Eval α (Value α) :=
  if index < 0 then throw .stuck
  else
    match items[index.toNat]? with
    | none => throw .stuck
    | some v => pure v

/-- Division takes the divisor first and is defined for `0 ≤ a` and `0 < b` only. -/
def divide (b a : Int) (result : Int) : Eval α (Value α) :=
  if 0 ≤ a ∧ 0 < b then pure (.int result) else throw .stuck

/-- The next value to read. -/
def input : Eval α (Value α) := do
  let s ← get
  match s.queue.inputs with
  | [] => throw .stuck
  | v :: rest =>
    set { s with queue := { s.queue with inputs := rest } }
    pure (.int v)

/-- Writes a number. -/
def output (n : Int) : Eval α Unit :=
  modify fun s => { s with queue := { s.queue with written := n :: s.queue.written } }

/-- What a built-in does with all its arguments. -/
def perform : Builtin → List (Value α) → Eval α (Value α)
  | .print, [.int n] => do
    output n
    pure (.builtin .unit [])
  | .succ, [.int n] => pure (.int (n + 1))
  | .add, [.int a, .int b] => pure (.int (a + b))
  | .mult, [.int a, .int b] => pure (.int (a * b))
  | .truth, [first, _] => pure first
  | .falsity, [_, second] => pure second
  | .sequence, [_] => pure (.builtin .sequence [])
  | .eq, [.int a, .int b] => pure (ofBool (a == b))
  | .neq, [.int a, .int b] => pure (ofBool (a != b))
  | .lt, [.int a, .int b] => pure (ofBool (decide (a < b)))
  | .sub, [.int a, .int b] => pure (.int (a - b))
  | .get, [.int pos, .tuple items] => element items pos
  | .fst, [.tuple items] => element items 0
  | .snd, [.tuple items] => element items 1
  | .mod, [.int b, .int a] => divide b a (a % b)
  | .div, [.int b, .int a] => divide b a (a / b)
  | .input, [_] => input
  | _, _ => throw .stuck

/-- Applies a built-in to one more argument. -/
def applyBuiltin (room : Room) (depth : Nat) (b : Builtin) (args : List (Value α)) (x : Value α) :
    Eval α (Value α) := do
  touch room (depth + 6)
  if args.length + 1 < b.params.length then
    allocate room 2
    pure (.builtin b (args ++ [x]))
  else if args.length + 1 = b.params.length then perform b (args ++ [x])
  else throw .stuck

/-! ## Trees -/

mutual

/-- Evaluates an expression, with `depth` words of stack in use below it. -/
def eval (room : Room) : (fuel depth : Nat) → Env α → Expr α → Eval α (Value α)
  | 0, _, _, _ => throw .outOfFuel
  | _ + 1, depth, _, .number _ n => do
    touch room (depth + 1)
    pure (.int n)
  | _ + 1, depth, env, .var _ name => do
    touch room (depth + 1)
    lookup name env
  | fuel + 1, depth, env, .group _ inner => eval room fuel depth env inner
  | fuel + 1, depth, env, .tuple _ items => do
    touch room (depth + 2)
    allocate room (1 + items.length)
    let items ← evalItems room fuel (depth + 2) env items
    pure (.tuple items)
  | fuel + 1, depth, env, .call _ f x => do
    touch room (depth + 5)
    let f ← eval room fuel (depth + 3) env f
    let x ← eval room fuel (depth + 3) env x
    allocate room 2
    apply room fuel (depth + 3) f x
  | _ + 1, depth, env, .function _ param body => do
    touch room (depth + 1)
    allocate room 2
    pure (.closure env param body)

/-- Evaluates expressions from left to right. -/
def evalItems (room : Room) : (fuel depth : Nat) → Env α → List (Expr α) → Eval α (List (Value α))
  | 0, _, _, _ => throw .outOfFuel
  | _ + 1, _, _, [] => pure []
  | fuel + 1, depth, env, e :: rest => do
    let v ← eval room fuel depth env e
    let vs ← evalItems room fuel depth env rest
    pure (v :: vs)

/-- Applies a value to an argument. -/
def apply (room : Room) : (fuel depth : Nat) → Value α → Value α → Eval α (Value α)
  | 0, _, _, _ => throw .outOfFuel
  | fuel + 1, depth, .closure env param body, x => eval room fuel (depth + 2) (.param param x :: env) body
  | _ + 1, depth, .builtin b args, x => applyBuiltin room depth b args x
  | _ + 1, _, _, _ => throw .stuck

end

mutual

/-- Evaluates the clauses of an assignment and then its value. -/
def evalAssignment (room : Room) : (fuel depth : Nat) → Env α → Assignment α μ → Eval α (Value α)
  | 0, _, _, _ => throw .outOfFuel
  | fuel + 1, depth, env, .mk _ _ value clauses => do
    touch room (depth + 4)
    let frame ← openFrame room clauses.length
    let env := .block (clauses.map Assignment.name) frame :: env
    evalAll room fuel (depth + 2) env clauses
    eval room fuel (depth + 2) env value

/-- Evaluates assignments in order and fills the slot of each one. -/
def evalAll (room : Room) : (fuel depth : Nat) → Env α → List (Assignment α μ) → Eval α Unit
  | 0, _, _, _ => throw .outOfFuel
  | _ + 1, _, _, [] => pure ()
  | fuel + 1, depth, env, a :: rest => do
    let v ← evalAssignment room fuel depth env a
    assign a.name v env
    evalAll room fuel depth env rest

end

/-- The state in which evaluation begins: `n` globals that are 0, and nothing on the heap. -/
def firstState (n : Nat) (inputs : List Int) : State α :=
  ⟨[List.replicate n (.int 0)], .ofInputs inputs, 0⟩

/-- Evaluates the top-level assignments of a program. -/
def run (room : Room) (fuel : Nat) (program : List (Assignment α μ)) (inputs : List Int) :
    Except Stop (State α) :=
  (evalAll room fuel 0 [.block (program.map Assignment.name) 0] program
    (firstState program.length inputs)).map Prod.snd

/-- The value of a global, that of the first slot of its name. -/
def global? (program : List (Assignment α μ)) (s : State α) (name : String) : Option (Value α) := do
  let index ← (program.map Assignment.name).idxOf? name
  let slots ← s.frames[0]?
  slots[index]?

/-! ## Evaluation that goes on -/

section Inversion

variable {β γ : Type} {room : Room} {s s' : State α}

theorem bind_eq_ok {x : Eval α β} {f : β → Eval α γ} {c : γ} :
    (x >>= f) s = .ok (c, s') ↔ ∃ b s₁, x s = .ok (b, s₁) ∧ f b s₁ = .ok (c, s') := by
  change (x s >>= fun p => f p.1 p.2) = _ ↔ _
  rcases hx : x s with e | ⟨b, s₁⟩
  · constructor
    · intro h
      cases h
    · rintro ⟨b, s₁, h, -⟩
      cases h
  · refine ⟨fun h => ⟨b, s₁, rfl, h⟩, ?_⟩
    rintro ⟨b', s₁', h, hf⟩
    cases h
    exact hf

theorem pure_eq_ok {b c : β} : (pure b : Eval α β) s = .ok (c, s') ↔ c = b ∧ s' = s := by
  constructor
  · intro h
    cases h
    exact ⟨rfl, rfl⟩
  · rintro ⟨rfl, rfl⟩
    rfl

theorem throw_ne_ok {e : Stop} {c : β × State α} : (throw e : Eval α β) s ≠ .ok c :=
  fun h => nomatch h

theorem touch_eq_ok {n : Nat} {u : Unit} :
    touch room n s = .ok (u, s') ↔ n ≤ room.stack ∧ s' = s := by
  unfold touch
  split
  · next h => exact pure_eq_ok.trans ⟨fun hs => ⟨h, hs.2⟩, fun hs => ⟨rfl, hs.2⟩⟩
  · next h => exact ⟨fun hs => (throw_ne_ok hs).elim, fun hs => (h hs.1).elim⟩

theorem allocate_eq_ok {n : Nat} {u : Unit} :
    allocate room n s = .ok (u, s') ↔
      s.heap + n ≤ room.heap ∧ s' = { s with heap := s.heap + n } := by
  change (if s.heap + n ≤ room.heap then set { s with heap := s.heap + n }
    else throw .outOfMemory : Eval α Unit) s = _ ↔ _
  split
  · next h =>
    refine ⟨fun hs => ⟨h, ?_⟩, fun hs => ?_⟩
    · cases hs
      rfl
    · rw [hs.2]
      rfl
  · next h => exact ⟨fun hs => (throw_ne_ok hs).elim, fun hs => (h hs.1).elim⟩

theorem run_eq_ok {fuel : Nat} {program : List (Assignment α μ)} {inputs : List Int} :
    run room fuel program inputs = .ok s ↔
      evalAll room fuel 0 [.block (program.map Assignment.name) 0] program
        (firstState program.length inputs) = .ok ((), s) := by
  unfold run
  rcases evalAll room fuel 0 _ program _ with e | ⟨⟨⟩, s'⟩
  · exact ⟨fun h => (nomatch h), fun h => (nomatch h)⟩
  · constructor
    · intro h
      cases h
      rfl
    · intro h
      cases h
      rfl

theorem openFrame_eq_ok {n k : Nat} :
    openFrame room n s = .ok (k, s') ↔
      s.heap + (1 + n) ≤ room.heap ∧ k = s.frames.length ∧
        s' = { s with heap := s.heap + (1 + n), frames := s.frames ++ [List.replicate n (.int 0)] } := by
  unfold openFrame
  rw [bind_eq_ok]
  constructor
  · rintro ⟨_, s₁, hallocate, h⟩
    obtain ⟨hroom, rfl⟩ := allocate_eq_ok.1 hallocate
    cases h
    exact ⟨hroom, rfl, rfl⟩
  · rintro ⟨hroom, rfl, rfl⟩
    exact ⟨(), _, allocate_eq_ok.2 ⟨hroom, rfl⟩, rfl⟩

theorem slot_eq_ok {k i : Nat} {v : Value α} (h : slot k i s = .ok (v, s')) :
    s' = s ∧ ∃ slots, s.frames[k]? = some slots ∧ slots[i]? = some v := by
  obtain ⟨_, _, hget, h⟩ := bind_eq_ok.1 h
  cases hget
  rcases hslots : s.frames[k]? with _ | slots
  · rw [hslots] at h
    cases h
  · rw [hslots] at h
    rcases hv : slots[i]? with _ | v'
    · simp only [hv] at h
      cases h
    · simp only [hv] at h
      cases h
      exact ⟨rfl, slots, rfl, hv⟩

theorem element_eq_ok {items : List (Value α)} {index : Int} {v : Value α}
    (h : element items index s = .ok (v, s')) :
    s' = s ∧ ∃ i : Nat, index = i ∧ items[i]? = some v := by
  unfold element at h
  split at h
  · cases h
  · next hnonneg =>
    rcases hv : items[index.toNat]? with _ | v'
    · rw [hv] at h
      cases h
    · rw [hv] at h
      cases h
      exact ⟨rfl, index.toNat, by omega, hv⟩

theorem divide_eq_ok {a b result : Int} {v : Value α} (h : divide b a result s = .ok (v, s')) :
    s' = s ∧ 0 ≤ a ∧ 0 < b ∧ v = .int result := by
  unfold divide at h
  split at h
  · next hab =>
    cases h
    exact ⟨rfl, hab.1, hab.2, rfl⟩
  · cases h

theorem input_eq_ok {v : Value α} (h : input s = .ok (v, s')) :
    ∃ n rest, s.queue.inputs = n :: rest ∧ v = .int n ∧
      s' = { s with queue := { s.queue with inputs := rest } } := by
  obtain ⟨_, _, hget, h⟩ := bind_eq_ok.1 h
  cases hget
  rcases hinputs : s.queue.inputs with _ | ⟨n, rest⟩
  · rw [hinputs] at h
    cases h
  · rw [hinputs] at h
    cases h
    exact ⟨n, rest, rfl, rfl, rfl⟩

theorem assign_eq_ok {name : String} {v : Value α} {env : Env α} {u : Unit}
    (h : assign name v env s = .ok (u, s')) :
    ∃ names k rest i, env = .block names k :: rest ∧ names.idxOf? name = some i ∧
      s' = { s with frames := s.frames.modify k (·.set i v) } := by
  unfold assign at h
  split at h
  · next names k rest =>
    rcases hi : names.idxOf? name with _ | i
    · rw [hi] at h
      cases h
    · rw [hi] at h
      cases h
      exact ⟨names, k, rest, i, rfl, hi, rfl⟩
  · cases h

theorem length_of_evalItems {fuel depth : Nat} {env : Env α} {items : List (Expr α)} {vs : List (Value α)}
    (h : evalItems room fuel depth env items s = .ok (vs, s')) : vs.length = items.length := by
  induction fuel generalizing items vs s s' with
  | zero => cases h
  | succ fuel ih =>
    cases items with
    | nil =>
      rw [evalItems] at h
      rw [(pure_eq_ok.1 h).1]
      rfl
    | cons e rest =>
      rw [evalItems] at h
      obtain ⟨v, s₁, -, h⟩ := bind_eq_ok.1 h
      obtain ⟨vs', s₂, hvs, h⟩ := bind_eq_ok.1 h
      rw [(pure_eq_ok.1 h).1, List.length_cons, List.length_cons, ih hvs]

end Inversion

end Lamcode.Reference
