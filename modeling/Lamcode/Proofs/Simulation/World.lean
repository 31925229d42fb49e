import Lamcode.Proofs.Code.Fragment
import Lamcode.Proofs.Reference.Evaluate
import Lamcode.Proofs.Scope.Scoped

/-!
# Lamcode.Proofs.Simulation.World — values as words

An `Image` is a linked program in memory, as far as running it relies on it. A `World` says what the words of memory
are used for at some moment of the run: some will never change again, some are slots of frames. Both only ever grow.

`Represents` says which word stands for a value, and `Encloses` which record stands for the scopes around an
expression. Words are compared with values through the world alone, never through the memory of a moment, so that what
represents a value now represents it in every later world (`Represents.mono`).
-/

namespace Lamcode.Simulation

open Layout Emit Operand Reference

/-! ## Images -/

/-- The code of the levels of a built-in for `param` and the parameters behind it, where the code of the first one
stands at `entry`, and the tables of scopes in which they were written. -/
def LevelsAt (L : Layout) (inner : Emit (List Item)) (t : ScopeTable) (outer entry : Nat) (param : String) :
    List String → Prop
  | [] =>
    ∃ site a a', Stands L ((t.child outer).2.bind t.size param) ⟨t.size, .generated⟩ inner entry a ∧
      Stands L ((t.child outer).2.bind t.size param) site (concat [jump (rel 1)]) a a'
  | next :: rest =>
    ∃ (site : Site) (below : Label) (a b : Nat), L.addresses[below.index]? = some b ∧
      Stands L ((t.child outer).2.bind t.size param) site
        (concat [copy (.wordAt .ramPointer) (rel 2), writeToRam (.addressOf below),
          writeToRam (rel 0), copy (rel 2) (rel 0), jump (rel 1)]) entry a ∧
      LevelsAt L inner ((t.child outer).2.bind t.size param) t.size b next rest

/-- The scope of the built-ins as it stands in every table of a compilation. -/
def builtinScope (builtins : List Builtin) : Scope :=
  ⟨none, some .builtinScope, builtins.map Builtin.name⟩

/-- A built-in stands at `x`: a closure over the record of the built-ins, or a word that is no closure. -/
def BuiltinAt (L : Layout) (record : Nat) (builtins : List Builtin) (b : Builtin) (x : Nat) : Prop :=
  match b.params with
  | [] => True
  | param :: rest =>
    ∃ (entry : Nat) (t : ScopeTable), L.frozen x = some entry ∧ entry < Memory.addressLimit ∧
      L.frozen (x + 1) = some record ∧ t.get ScopeTable.builtins = builtinScope builtins ∧
      LevelsAt L b.body t ScopeTable.builtins entry param rest

/-- A linked program in memory: the image itself, above it the stack, and above that the heap. -/
structure Image where
  layout : Layout
  /-- The scopes in which the trees of the program were compiled. -/
  scopes : ScopeTable
  builtins : List Builtin
  room : Room
  /-- The last word of the image, which is the first one of the stack. -/
  stackBegin : Nat
  ramBegin : Nat
  /-- The word that holds the next free heap address. -/
  cursor : Nat
  builtinRecord : Nat
  globalRecord : Nat
  allocator : Nat
  frozen_bounds : ∀ {x v}, layout.frozen x = some v → 0 ≤ x ∧ x < stackBegin
  scratch_bounds : ∀ {x}, layout.scratch x → 0 ≤ x ∧ x < stackBegin
  cursor_lt : cursor < stackBegin
  not_scratch_cursor : ¬ layout.scratch cursor
  frozen_cursor : layout.frozen cursor = none
  address_cursor : layout.addresses[Label.ramPointer.index]? = some cursor
  address_builtins : layout.addresses[Label.builtinScope.index]? = some builtinRecord
  address_globals : layout.addresses[Label.globalScope.index]? = some globalRecord
  address_allocator : layout.addresses[Label.allocateScope.index]? = some allocator
  address_lt : ∀ {l : Label} {a}, layout.addresses[l.index]? = some a → a < Memory.addressLimit
  stack_fits : stackBegin + 2 + room.stack ≤ ramBegin
  heap_fits : ramBegin + room.heap ≤ Memory.addressLimit
  allocator_stands : ∃ site a, Stands layout scopes site
    (concat [copy (.wordAt .ramPointer) (rel 3), writeToRam (rel 1), addTo (rel 0) (.wordAt .ramPointer),
      copy (rel 3) (rel 0), jump (rel 2)]) allocator a
  builtin_stands : ∀ {i : Nat} {b : Builtin}, builtins[i]? = some b →
    ∃ x : Nat, layout.frozen (builtinRecord + 1 + i) = some x ∧
      BuiltinAt layout builtinRecord builtins b x

namespace Image

variable (I : Image)

/-- A word of the stack. -/
def OnStack (x : Int) : Prop :=
  I.stackBegin ≤ x ∧ x < I.ramBegin

variable {I}

theorem free_cursor : I.layout.Free I.cursor := by
  have := I.cursor_lt
  have := I.stack_fits
  have := I.heap_fits
  exact ⟨by omega, by omega, I.not_scratch_cursor⟩

/-- Above the image all words that the machine can address are data. -/
theorem free_of_le {x : Int} (h : I.stackBegin ≤ x) (hlt : x < Memory.addressLimit) : I.layout.Free x := by
  refine ⟨by omega, hlt, fun hs => ?_⟩
  have := I.scratch_bounds hs
  omega

theorem OnStack.free {x : Int} (h : I.OnStack x) : I.layout.Free x := by
  have := I.heap_fits
  exact free_of_le h.1 (by have := h.2; omega)

variable (I) in
/-- The base of a frame with `depth` words of stack in use below it. -/
def base (depth : Nat) : Int :=
  I.stackBegin + 2 + depth

theorem base_add (depth n : Nat) : I.base (depth + n) = I.base depth + n := by
  unfold base
  push_cast
  omega

/-- The slots of a frame, as many of them as there is room for, and the two words below it. -/
theorem onStack_of_le {depth n : Nat} (h : depth + n ≤ I.room.stack) {x : Int}
    (hx : I.base depth - 2 ≤ x) (hlt : x < I.base depth + n) : I.OnStack x := by
  have := I.stack_fits
  unfold base at hx hlt
  exact ⟨by omega, by omega⟩

end Image

/-! ## Worlds -/

/-- What a word of memory is used for. -/
inductive Content where
  /-- It holds a number that will never change. -/
  | fixed (v : Int)
  /-- It is a slot of a frame. -/
  | slot (frame index : Nat)

/-- What the words of memory are used for. -/
structure World (I : Image) where
  word : Int → Option Content
  of_frozen : ∀ {x v}, I.layout.frozen x = some v → word x = some (.fixed v)
  free : ∀ {x c}, word x = some c → I.layout.Free x
  ne_cursor : ∀ {x : Int} {c}, word x = some c → x ≠ I.cursor
  not_onStack : ∀ {x c}, word x = some c → ¬ I.OnStack x
  slot_unique : ∀ {x y k i}, word x = some (.slot k i) → word y = some (.slot k i) → x = y

namespace World

variable {I : Image}

/-- The second world knows all that the first one knows. -/
def Extends (W W' : World I) : Prop :=
  ∀ ⦃x c⦄, W.word x = some c → W'.word x = some c

theorem Extends.refl (W : World I) : W.Extends W :=
  fun _ _ h => h

theorem Extends.trans {W W' W'' : World I} (h : W.Extends W') (k : W'.Extends W'') : W.Extends W'' :=
  fun _ _ hx => k (h hx)

end World

/-! ## Values and environments -/

/-- The scopes that the parameters of a built-in make when they are bound one by one. -/
def bindAll : List String → List (Value Site) → Env Site → Env Site
  | param :: params, v :: vs, env => bindAll params vs (.param param v :: env)
  | _, _, env => env

@[simp] theorem bindAll_nil (params : List String) (env : Env Site) : bindAll params [] env = env := by
  cases params <;> rfl

theorem bindAll_append {param : String} {rest params : List String} {vs : List (Value Site)} (v : Value Site)
    (h : params.drop vs.length = param :: rest) (env : Env Site) :
    bindAll params (vs ++ [v]) env = .param param v :: bindAll params vs env := by
  induction vs generalizing params env with
  | nil =>
    obtain rfl : params = param :: rest := h
    cases rest <;> rfl
  | cons w ws ih =>
    cases params with
    | nil => simp at h
    | cons p ps => exact ih (by simpa using h) _

mutual

/-- The word that stands for a value. -/
inductive Represents (I : Image) (W : World I) : Value Site → Int → Prop
  | int (n : Int) : Represents I W (.int n) n
  | tuple {items : List (Value Site)} {x : Int} :
    W.word x = some (.fixed items.length) → RepresentsAll I W items (x + 1) →
    Represents I W (.tuple items) x
  | closure {env : Env Site} {param : String} {body : Expr Site} {x r : Int} {entry h scope inner : Nat} :
    W.word x = some (.fixed entry) → entry < Memory.addressLimit → W.word (x + 1) = some (.fixed r) →
    Encloses I W I.scopes env scope r →
    I.scopes.get inner = ⟨some scope, none, [param]⟩ → scope < inner → body.ScopedIn I.scopes inner →
    FragmentStands.BodyStands I.layout I.scopes body entry h →
    Represents I W (.closure env param body) x
  | builtin {b : Builtin} {args : List (Value Site)} {x r : Int} {entry outer : Nat} {t : ScopeTable}
    {param : String} {rest : List String} :
    W.word x = some (.fixed entry) → entry < Memory.addressLimit → W.word (x + 1) = some (.fixed r) →
    Encloses I W t (bindAll b.params args []) outer r → b.params.drop args.length = param :: rest →
    LevelsAt I.layout b.body t outer entry param rest → Represents I W (.builtin b args) x
  /-- The unit value can be any word: nothing is ever done with it. -/
  | unit {b : Builtin} (x : Int) : b.params = [] → Represents I W (.builtin b []) x

/-- The words from `x` on stand for values, one after the other. -/
inductive RepresentsAll (I : Image) (W : World I) : List (Value Site) → Int → Prop
  | nil (x : Int) : RepresentsAll I W [] x
  | cons {v : Value Site} {vs : List (Value Site)} {x y : Int} :
    W.word x = some (.fixed y) → Represents I W v y → RepresentsAll I W vs (x + 1) →
    RepresentsAll I W (v :: vs) x

/-- The record that stands for the scopes around an expression, in which names resolve from `scope`. -/
inductive Encloses (I : Image) (W : World I) : ScopeTable → Env Site → Nat → Int → Prop
  | builtins {t : ScopeTable} :
    t.get ScopeTable.builtins = builtinScope I.builtins →
    Encloses I W t [] ScopeTable.builtins I.builtinRecord
  | globals {t : ScopeTable} {names : List String} :
    t.get ScopeTable.builtins = builtinScope I.builtins →
    t.get ScopeTable.globals = ⟨some ScopeTable.builtins, some .globalScope, names⟩ →
    (∀ i < names.length, W.word (I.globalRecord + 1 + i) = some (.slot 0 i)) →
    Encloses I W t [.block names 0] ScopeTable.globals I.globalRecord
  | param {t : ScopeTable} {env : Env Site} {name : String} {v : Value Site} {outer scope : Nat}
    {r r' y : Int} :
    t.get scope = ⟨some outer, none, [name]⟩ → outer < scope → W.word r = some (.fixed r') →
    Encloses I W t env outer r' → W.word (r + 1) = some (.fixed y) → Represents I W v y →
    Encloses I W t (.param name v :: env) scope r
  | block {t : ScopeTable} {env : Env Site} {names : List String} {k outer scope : Nat} {r r' : Int} :
    t.get scope = ⟨some outer, none, names⟩ → outer < scope → W.word r = some (.fixed r') →
    Encloses I W t env outer r' →
    (∀ i < names.length, W.word (r + 1 + i) = some (.slot k i)) →
    Encloses I W t (.block names k :: env) scope r

end

variable {I : Image} {W W' : World I}

mutual

/-- What represents a value represents it in every later world. -/
theorem Represents.mono (hW : W.Extends W') {v : Value Site} {x : Int} :
    Represents I W v x → Represents I W' v x
  | .int n => .int n
  | .tuple hx hitems => .tuple (hW hx) (hitems.mono hW)
  | .closure hx hlt hx' henv hscope hinner hbody hstands =>
    .closure (hW hx) hlt (hW hx') (henv.mono hW) hscope hinner hbody hstands
  | .builtin hx hlt hx' henv hparams hlevels =>
    .builtin (hW hx) hlt (hW hx') (henv.mono hW) hparams hlevels
  | .unit x hparams => .unit x hparams

theorem RepresentsAll.mono (hW : W.Extends W') {vs : List (Value Site)} {x : Int} :
    RepresentsAll I W vs x → RepresentsAll I W' vs x
  | .nil x => .nil x
  | .cons hx hv hvs => .cons (hW hx) (hv.mono hW) (hvs.mono hW)

theorem Encloses.mono (hW : W.Extends W') {t : ScopeTable} {env : Env Site} {scope : Nat} {r : Int} :
    Encloses I W t env scope r → Encloses I W' t env scope r
  | .builtins hscope => .builtins hscope
  | .globals hbuiltins hscope hslots => .globals hbuiltins hscope fun i hi => hW (hslots i hi)
  | .param hscope hlt hr henv hslot hv =>
    .param hscope hlt (hW hr) (henv.mono hW) (hW hslot) (hv.mono hW)
  | .block hscope hlt hr henv hslots =>
    .block hscope hlt (hW hr) (henv.mono hW) fun i hi => hW (hslots i hi)

end

/-- Scopes that are added behind do not matter. -/
theorem Encloses.retable {t t' : ScopeTable} {env : Env Site} {scope : Nat} {r : Int}
    (ht : ∀ s ≤ scope, t'.get s = t.get s) :
    Encloses I W t env scope r → Encloses I W t' env scope r
  | .builtins hscope => .builtins ((ht _ (Nat.le_refl _)).trans hscope)
  | .globals hbuiltins hscope hslots =>
    .globals ((ht _ (by decide)).trans hbuiltins) ((ht _ (Nat.le_refl _)).trans hscope) hslots
  | .param hscope hlt hr henv hslot hv =>
    .param ((ht _ (Nat.le_refl _)).trans hscope) hlt hr
      (henv.retable fun s hs => ht s (Nat.le_trans hs (Nat.le_of_lt hlt))) hslot hv
  | .block hscope hlt hr henv hslots =>
    .block ((ht _ (Nat.le_refl _)).trans hscope) hlt hr
      (henv.retable fun s hs => ht s (Nat.le_trans hs (Nat.le_of_lt hlt))) hslots

theorem Encloses.lt_size {t : ScopeTable} {env : Env Site} {scope : Nat} {r : Int}
    (h : Encloses I W t env scope r) : scope < t.size := by
  refine t.lt_size_of_get_ne fun hget => ?_
  cases h with
  | builtins hscope => cases hget.symm.trans hscope
  | globals _ hscope => cases hget.symm.trans hscope
  | param hscope => cases hget.symm.trans hscope
  | block hscope => cases hget.symm.trans hscope

/-- The element of a tuple is in the word at its place. -/
theorem RepresentsAll.getElem? {vs : List (Value Site)} {x : Int} (h : RepresentsAll I W vs x) {i : Nat}
    {v : Value Site} (hv : vs[i]? = some v) :
    ∃ y, W.word (x + i) = some (.fixed y) ∧ Represents I W v y := by
  induction vs generalizing x i with
  | nil => simp at hv
  | cons w ws ih =>
    cases h with
    | cons hx hw hws =>
      cases i with
      | zero =>
        obtain rfl : w = v := by simpa using hv
        exact ⟨_, by simpa using hx, hw⟩
      | succ i =>
        obtain ⟨y, hy, hrep⟩ := ih hws (by simpa using hv)
        exact ⟨y, by rw [← hy]; congr 1; push_cast; omega, hrep⟩

end Lamcode.Simulation
