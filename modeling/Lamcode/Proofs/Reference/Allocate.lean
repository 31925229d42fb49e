import Mathlib.Logic.Function.Basic
import Lamcode.Compile.Image
import Lamcode.Proofs.Emit.Bodies

/-!
# Lamcode.Proofs.Reference.Allocate — what programs without calls leave on the heap

A program that calls nothing outside of function bodies only allocates and stores. What it does is said here without
its code, as a walk over its trees that moves a cursor through memory: an assignment puts the record of its scope on the
heap, runs its clauses and then its value; a tuple puts its length and its elements there, a function its code address
and the record around it. What a walk needs of the stack and of the heap is read off the trees alone.
-/

namespace Lamcode

variable {α β : Type}

/-! ## What trees ask for -/

namespace Expr

mutual

/-- There are no calls but in function bodies. -/
def callFree : Expr α → Bool
  | .number _ _ | .var _ _ | .function _ _ _ => true
  | .tuple _ items => callFreeItems items
  | .call _ _ _ => false
  | .group _ e => e.callFree

/-- There are no calls in any of the expressions but in function bodies. -/
def callFreeItems : List (Expr α) → Bool
  | [] => true
  | e :: rest => e.callFree && callFreeItems rest

end

mutual

/-- How many functions are written in the expression, those in function bodies included. -/
def functions : Expr α → Nat
  | .number _ _ | .var _ _ => 0
  | .tuple _ items => functionsOf items
  | .call _ f x => f.functions + x.functions
  | .function _ _ body => 1 + body.functions
  | .group _ e => e.functions

/-- How many functions are written in the expressions. -/
def functionsOf : List (Expr α) → Nat
  | [] => 0
  | e :: rest => e.functions + functionsOf rest

end

mutual

/-- The words of the stack from its frame on that an expression without calls uses. -/
def stackWords : Expr α → Nat
  | .number _ _ | .var _ _ | .function _ _ _ | .call _ _ _ => 1
  | .tuple _ items => 2 + stackWordsOf items
  | .group _ e => e.stackWords

/-- The words of the stack that expressions without calls use, one after the other. -/
def stackWordsOf : List (Expr α) → Nat
  | [] => 0
  | e :: rest => max e.stackWords (stackWordsOf rest)

end

mutual

/-- The words of the heap that an expression without calls allocates: a tuple one more than it has elements, and a
function two. -/
def heapWords : Expr α → Nat
  | .number _ _ | .var _ _ | .call _ _ _ => 0
  | .tuple _ items => (1 + items.length) + heapWordsOf items
  | .function _ _ _ => 2
  | .group _ e => e.heapWords

/-- The words of the heap that expressions without calls allocate. -/
def heapWordsOf : List (Expr α) → Nat
  | [] => 0
  | e :: rest => e.heapWords + heapWordsOf rest

end

end Expr

namespace Assignment

mutual

/-- There are no calls in the assignment but in function bodies. -/
def callFree : Assignment α β → Bool
  | .mk _ _ value clauses => callFreeAll clauses && value.callFree

/-- There are no calls in any of the assignments but in function bodies. -/
def callFreeAll : List (Assignment α β) → Bool
  | [] => true
  | a :: rest => a.callFree && callFreeAll rest

end

mutual

/-- How many functions are written in the assignment. -/
def functions : Assignment α β → Nat
  | .mk _ _ value clauses => functionsOf clauses + value.functions

/-- How many functions are written in the assignments. -/
def functionsOf : List (Assignment α β) → Nat
  | [] => 0
  | a :: rest => a.functions + functionsOf rest

end

mutual

/-- The words of the stack that an assignment without calls uses: four while its record is allocated, then what its
clauses and its value use two words further up. -/
def stackWords : Assignment α β → Nat
  | .mk _ _ value clauses => max 4 (2 + max (stackWordsOf clauses) value.stackWords)

/-- The words of the stack that assignments without calls use, one after the other. -/
def stackWordsOf : List (Assignment α β) → Nat
  | [] => 0
  | a :: rest => max a.stackWords (stackWordsOf rest)

end

mutual

/-- The words of the heap that an assignment without calls allocates: its record has one more than there are clauses. -/
def heapWords : Assignment α β → Nat
  | .mk _ _ value clauses => (1 + clauses.length) + heapWordsOf clauses + value.heapWords

/-- The words of the heap that assignments without calls allocate. -/
def heapWordsOf : List (Assignment α β) → Nat
  | [] => 0
  | a :: rest => a.heapWords + heapWordsOf rest

end

end Assignment

/-! ## Memory with a cursor -/

namespace Bump

/-- Memory while a program allocates. -/
structure State where
  /-- The address of the next free heap word. -/
  cursor : Int
  word : Int → Int
  /-- The addresses of the bodies of the functions that are still to come, in the order they are written in. -/
  bodies : List Int

namespace State

/-- The state with one word changed. -/
def store (x v : Int) (st : State) : State :=
  { st with word := Function.update st.word x v }

/-- The state with one more word on the heap. -/
def push (st : State) (v : Int) : State :=
  { st with cursor := st.cursor + 1, word := Function.update st.word st.cursor v }

/-- The state with these words on the heap, too. -/
def alloc (vs : List Int) (st : State) : State :=
  vs.foldl push st

end State

/-- The scopes around an expression, innermost first: the names of each and the address of its record. -/
abbrev Scopes : Type :=
  List (List String × Int)

namespace Scopes

/-- The record of the innermost scope. -/
def record : Scopes → Int
  | [] => 0
  | (_, r) :: _ => r

/-- The address of the slot of a name: the first one of this name in the innermost scope that has it. -/
def slot (name : String) : Scopes → Int
  | [] => 0
  | (names, r) :: outer =>
    match names.idxOf? name with
    | some i => r + (Heap.recordHeader + i : Nat)
    | none => slot name outer

end Scopes

end Bump

open Bump

/-! ## The walk over a program -/

namespace Expr

mutual

/-- Evaluates an expression without calls. A variable is the word that its slot holds by then; a tuple is on the heap
before its elements are evaluated, each of which is stored at once. -/
def allocate (scopes : Scopes) : Expr α → State → Int × State
  | .number _ v, st => (v, st)
  | .var _ name, st => (st.word (scopes.slot name), st)
  | .tuple _ items, st =>
    (st.cursor, allocateItems scopes (st.cursor + Heap.tupleHeader) items
      (st.alloc (items.length :: List.replicate items.length 0)))
  | .call _ _ _, st => (0, st)
  | .function _ _ body, st =>
    (st.cursor, { st.alloc [st.bodies.headD 0, scopes.record] with bodies := st.bodies.drop (1 + body.functions) })
  | .group _ e, st => e.allocate scopes st

/-- Evaluates expressions and stores their values from an address on. -/
def allocateItems (scopes : Scopes) (x : Int) : List (Expr α) → State → State
  | [], st => st
  | e :: rest, st =>
    let (v, st) := e.allocate scopes st
    allocateItems scopes (x + 1) rest (st.store x v)

end

end Expr

namespace Assignment

mutual

/-- Evaluates the value of an assignment in the scope of its clauses, whose record is allocated first. -/
def allocate (scopes : Scopes) : Assignment α β → State → Int × State
  | .mk _ _ value clauses, st =>
    let inner := (clauses.map name, st.cursor) :: scopes
    value.allocate inner (allocateAll inner clauses
      (st.alloc (scopes.record :: List.replicate clauses.length 0)))

/-- Runs assignments in order and stores each value in the slot of its name. -/
def allocateAll (scopes : Scopes) : List (Assignment α β) → State → State
  | [], st => st
  | a :: rest, st =>
    let (v, st) := a.allocate scopes st
    allocateAll scopes rest (st.store (scopes.slot a.name) v)

end

end Assignment

namespace Program

/-- There are no calls in the program but in function bodies. -/
def callFree (p : Program) : Bool :=
  Assignment.callFreeAll p.assignments

/-- The words behind the image that a program without calls uses as its stack. The frame of the assignments
starts one word behind the image. -/
def stackWords (p : Program) : Nat :=
  if p.assignments.isEmpty then 0 else 1 + Assignment.stackWordsOf p.assignments

/-- The words of the heap that a program without calls allocates. -/
def heapWords (p : Program) : Nat :=
  Assignment.heapWordsOf p.assignments

end Program

namespace Compiled

/-- The address of a label, or 0. -/
def addressOf (c : Compiled) (l : Label) : Nat :=
  (c.assembly.address? l).getD 0

/-- The scopes around the assignments of a compiled program. -/
def outerScopes (c : Compiled) : Scopes :=
  [(c.globals, c.addressOf .globalScope), (c.builtins.map Builtin.name, c.addressOf .builtinScope)]

/-- The memory of a compiled program that is loaded, with the cursor at the first heap address. -/
def loaded (c : Compiled) (ramBegin : Nat) : State where
  cursor := ramBegin
  word x := (Memory.ofWords c.words).get x.toNat
  bodies := c.labels.bodies.map fun l => c.addressOf l

/-- The memory that a program without calls leaves, from its trees and its loaded image. -/
def allocated (c : Compiled) (p : Program) (ramBegin : Nat) : State :=
  Assignment.allocateAll c.outerScopes p.assignments (c.loaded ramBegin)

end Compiled

/-! ## What a walk changes -/

namespace Bump.State

@[simp] theorem cursor_store (x v : Int) (st : State) : (st.store x v).cursor = st.cursor := rfl

@[simp] theorem bodies_store (x v : Int) (st : State) : (st.store x v).bodies = st.bodies := rfl

theorem word_store (x v y : Int) (st : State) : (st.store x v).word y = if y = x then v else st.word y :=
  Function.update_apply ..

@[simp] theorem cursor_push (v : Int) (st : State) : (st.push v).cursor = st.cursor + 1 := rfl

theorem word_push (v y : Int) (st : State) : (st.push v).word y = if y = st.cursor then v else st.word y :=
  Function.update_apply ..

@[simp] theorem cursor_alloc (vs : List Int) (st : State) : (st.alloc vs).cursor = st.cursor + vs.length := by
  induction vs generalizing st with
  | nil => simp [alloc]
  | cons v vs ih =>
    change ((st.push v).alloc vs).cursor = _
    rw [ih, cursor_push, List.length_cons]
    omega

/-- Tuples and records are allocated as one word with zeros behind it. -/
theorem cursor_alloc_block (v : Int) (n : Nat) (st : State) :
    (st.alloc (v :: List.replicate n 0)).cursor = st.cursor + (1 + n : Nat) := by
  rw [cursor_alloc, List.length_cons, List.length_replicate, Nat.add_comm]

theorem word_alloc_of_lt (vs : List Int) {st : State} {x : Int} (hx : x < st.cursor) :
    (st.alloc vs).word x = st.word x := by
  induction vs generalizing st with
  | nil => rfl
  | cons v vs ih =>
    have hpush : x < (st.push v).cursor := by
      rw [cursor_push]
      omega
    exact (ih hpush).trans ((word_push ..).trans (if_neg (Int.ne_of_lt hx)))

/-- The first of the words is where the cursor was. -/
theorem word_alloc_cons (v : Int) (vs : List Int) (st : State) : (st.alloc (v :: vs)).word st.cursor = v := by
  have hpush : st.cursor < (st.push v).cursor := by
    rw [cursor_push]
    omega
  exact (word_alloc_of_lt vs hpush).trans ((word_push ..).trans (if_pos rfl))

@[simp] theorem bodies_alloc (vs : List Int) (st : State) : (st.alloc vs).bodies = st.bodies := by
  induction vs generalizing st with
  | nil => rfl
  | cons v vs ih => exact ih (st.push v)

/-- Zeros are on the heap already where nothing was stored yet. -/
theorem alloc_zeros {st : State} (h : ∀ x, st.cursor ≤ x → st.word x = 0) (n : Nat) :
    st.alloc (List.replicate n 0) = { st with cursor := st.cursor + n } := by
  induction n generalizing st with
  | zero => simp [alloc]
  | succ n ih =>
    have hpush : st.push 0 = { st with cursor := st.cursor + 1 } := by
      rw [push, ← h st.cursor (Int.le_refl _), Function.update_eq_self]
    rw [List.replicate_succ]
    change (st.push 0).alloc _ = _
    have hunused : ∀ x, st.cursor + 1 ≤ x → st.word x = 0 := fun x hx => h x (by omega)
    rw [hpush, @ih { st with cursor := st.cursor + 1 } hunused]
    simp only [State.mk.injEq, and_true]
    push_cast
    omega

end Bump.State

namespace Expr

mutual

/-- The cursor moves by what the tree asks for. -/
theorem cursor_allocate (scopes : Scopes) : ∀ (e : Expr α) (st : State),
    (e.allocate scopes st).2.cursor = st.cursor + e.heapWords
  | .number _ _, st | .var _ _, st | .call _ _ _, st => (Int.add_zero _).symm
  | .tuple _ items, st => by
    rw [allocate, cursor_allocateItems, State.cursor_alloc_block, heapWords]
    omega
  | .function _ _ body, st => State.cursor_alloc _ st
  | .group _ e, st => cursor_allocate scopes e st

theorem cursor_allocateItems (scopes : Scopes) : ∀ (x : Int) (items : List (Expr α)) (st : State),
    (allocateItems scopes x items st).cursor = st.cursor + heapWordsOf items
  | _, [], st => (Int.add_zero _).symm
  | x, e :: rest, st => by
    rw [allocateItems, cursor_allocateItems, State.cursor_store, cursor_allocate, heapWordsOf]
    omega

end

mutual

/-- What is on the heap when an expression is evaluated stays as it is. -/
theorem word_allocate (scopes : Scopes) {x : Int} : ∀ (e : Expr α) {st : State}, x < st.cursor →
    (e.allocate scopes st).2.word x = st.word x
  | .number _ _, _, _ | .var _ _, _, _ | .call _ _ _, _, _ => rfl
  | .tuple _ items, st, hx => by
    have hx' : x < (st.alloc (items.length :: List.replicate items.length 0)).cursor := by
      rw [State.cursor_alloc]
      omega
    have hlt : x < st.cursor + Heap.tupleHeader := by omega
    exact (word_allocateItems scopes items hx' (.inl hlt)).trans (State.word_alloc_of_lt _ hx)
  | .function _ _ _, st, hx => State.word_alloc_of_lt [st.bodies.headD 0, scopes.record] hx
  | .group _ e, _, hx => word_allocate scopes e hx

/-- Evaluating the elements of a tuple changes nothing on the heap but the elements. -/
theorem word_allocateItems (scopes : Scopes) {x : Int} : ∀ (items : List (Expr α)) {y : Int} {st : State},
    x < st.cursor → x < y ∨ y + items.length ≤ x → (allocateItems scopes y items st).word x = st.word x
  | [], _, _, _, _ => rfl
  | e :: rest, y, st, hx, hy => by
    rw [List.length_cons] at hy
    have hx' : x < ((e.allocate scopes st).2.store y (e.allocate scopes st).1).cursor := by
      rw [State.cursor_store, cursor_allocate]
      omega
    rw [allocateItems, word_allocateItems scopes rest hx' (by omega), State.word_store, if_neg (by omega)]
    exact word_allocate scopes e hx

end

end Expr

namespace Assignment

mutual

theorem cursor_allocate (scopes : Scopes) : ∀ (a : Assignment α β) (st : State),
    (a.allocate scopes st).2.cursor = st.cursor + a.heapWords
  | .mk _ _ value clauses, st => by
    rw [allocate, Expr.cursor_allocate, cursor_allocateAll, State.cursor_alloc_block, heapWords]
    omega

/-- The cursor moves by what the assignments ask for. -/
theorem cursor_allocateAll (scopes : Scopes) : ∀ (as : List (Assignment α β)) (st : State),
    (allocateAll scopes as st).cursor = st.cursor + heapWordsOf as
  | [], st => (Int.add_zero _).symm
  | a :: rest, st => by
    rw [allocateAll, cursor_allocateAll, State.cursor_store, cursor_allocate, heapWordsOf]
    omega

end

end Assignment

/-! ## Which functions are still to come -/

namespace Expr

mutual

/-- The functions that are written in an expression have been met when it is evaluated. -/
theorem bodies_allocate (scopes : Scopes) : ∀ (e : Expr α) {st : State}, e.callFree = true →
    (e.allocate scopes st).2.bodies = st.bodies.drop e.functions
  | .number _ _, _, _ | .var _ _, _, _ | .function _ _ _, _, _ => rfl
  | .tuple _ items, st, h => by
    rw [allocate, bodies_allocateItems scopes items h, State.bodies_alloc, functions]
  | .group _ e, _, h => bodies_allocate scopes e h

theorem bodies_allocateItems (scopes : Scopes) : ∀ (items : List (Expr α)) {x : Int} {st : State},
    callFreeItems items = true → (allocateItems scopes x items st).bodies = st.bodies.drop (functionsOf items)
  | [], _, _, _ => rfl
  | e :: rest, x, st, h => by
    obtain ⟨he, hrest⟩ := Bool.and_eq_true_iff.1 h
    rw [allocateItems, bodies_allocateItems scopes rest hrest, State.bodies_store, bodies_allocate scopes e he,
      List.drop_drop, functionsOf]

end

/-- Every expression needs a slot for its value. -/
theorem stackWords_pos : ∀ e : Expr α, 0 < e.stackWords
  | .number _ _ | .var _ _ | .function _ _ _ | .call _ _ _ => Nat.one_pos
  | .tuple _ items => by
    rw [stackWords]
    omega
  | .group _ e => e.stackWords_pos

end Expr

namespace Assignment

/-- Every assignment needs four words while its record is allocated. -/
theorem four_le_stackWords : ∀ a : Assignment α β, 4 ≤ a.stackWords
  | .mk _ _ value clauses => by
    rw [stackWords]
    omega

mutual

theorem bodies_allocate (scopes : Scopes) : ∀ (a : Assignment α β) {st : State}, a.callFree = true →
    (a.allocate scopes st).2.bodies = st.bodies.drop a.functions
  | .mk _ _ value clauses, st, h => by
    obtain ⟨hclauses, hvalue⟩ := Bool.and_eq_true_iff.1 h
    rw [allocate, Expr.bodies_allocate _ value hvalue, bodies_allocateAll _ clauses hclauses, State.bodies_alloc,
      List.drop_drop, functions]

/-- The functions that are written in assignments have been met when they are run. -/
theorem bodies_allocateAll (scopes : Scopes) : ∀ (as : List (Assignment α β)) {st : State},
    callFreeAll as = true → (allocateAll scopes as st).bodies = st.bodies.drop (functionsOf as)
  | [], _, _ => rfl
  | a :: rest, st, h => by
    obtain ⟨ha, hrest⟩ := Bool.and_eq_true_iff.1 h
    rw [allocateAll, bodies_allocateAll scopes rest hrest, State.bodies_store, bodies_allocate scopes a ha,
      List.drop_drop, functionsOf]

end

end Assignment

/-! ## What stays as it is -/

theorem Bump.Scopes.slot_of_mem {names : List String} {name : String} (h : name ∈ names) (r : Int)
    (outer : Scopes) :
    ∃ i : Nat, names.idxOf? name = some i ∧ i < names.length ∧
      Scopes.slot name ((names, r) :: outer) = r + (Heap.recordHeader + i : Nat) := by
  rcases hi : names.idxOf? name with _ | i
  · exact absurd h (by simpa using hi)
  · exact ⟨i, rfl, (List.idxOf?_eq_some_iff.1 hi).1, by rw [slot, hi]⟩

namespace Assignment

mutual

/-- What is on the heap when an assignment is run stays as it is. -/
theorem word_allocate (scopes : Scopes) {x : Int} : ∀ (a : Assignment α β) {st : State}, x < st.cursor →
    (a.allocate scopes st).2.word x = st.word x
  | .mk _ _ value clauses, st, hx => by
    have hx' : x < (st.alloc (scopes.record :: List.replicate clauses.length 0)).cursor := by
      rw [State.cursor_alloc]
      omega
    -- the slots of the clauses are behind the old cursor
    have hslot : ∀ a ∈ clauses, x ≠ Scopes.slot a.name ((clauses.map name, st.cursor) :: scopes) := by
      intro a ha
      obtain ⟨i, -, -, hi⟩ := Scopes.slot_of_mem (List.mem_map_of_mem (f := name) ha) st.cursor scopes
      omega
    have hclauses := word_allocateAll ((clauses.map name, st.cursor) :: scopes) clauses hx' hslot
    rw [allocate, Expr.word_allocate _ value, hclauses, State.word_alloc_of_lt _ hx]
    rw [cursor_allocateAll]
    omega

/-- Running assignments changes nothing on the heap but the slots of their names. -/
theorem word_allocateAll (scopes : Scopes) {x : Int} : ∀ (as : List (Assignment α β)) {st : State},
    x < st.cursor → (∀ a ∈ as, x ≠ scopes.slot a.name) → (allocateAll scopes as st).word x = st.word x
  | [], _, _, _ => rfl
  | a :: rest, st, hx, hslot => by
    have hx' : x < ((a.allocate scopes st).2.store (scopes.slot a.name) (a.allocate scopes st).1).cursor := by
      rw [State.cursor_store, cursor_allocate]
      omega
    rw [allocateAll, word_allocateAll scopes rest hx' fun a' ha' => hslot a' (List.mem_cons_of_mem _ ha'),
      State.word_store, if_neg (hslot a (List.mem_cons_self ..))]
    exact word_allocate scopes a hx

end

end Assignment

end Lamcode
