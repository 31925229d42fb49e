import Mathlib.Logic.Function.Basic
import Lamcode.Emit.Operand
import Lamcode.Link.Assembly
import Lamcode.Proofs.Machine.Reach

/-!
# Lamcode.Proofs.Code.Layout — linked code in the memory of a machine

Linked code is partly rewritten while it runs: an operand word that carries a label is written by the
instructions in front of it. A `Layout` therefore divides memory in three: words that never change
(`frozen`), operand words that the code writes itself (`scratch`), and all the rest, which is data. `CodeAt`
says that items stand at an address of the layout.

A `Config` is a machine as its program means it: the scratch words are left out, because no code relies on what
it finds in them. `Leads` is a run between two configurations, from every machine that looks like the first one.
-/

namespace Lamcode

/-! ## Sizes of code -/

/-- How many words items take up. -/
def Item.size (items : List Item) : Nat :=
  items.countP Item.isCell

namespace Item

@[simp] theorem size_nil : size [] = 0 := rfl

@[simp] theorem size_cell (c : Cell) (items : List Item) :
    size (.cell c :: items) = size items + 1 :=
  List.countP_cons_of_pos rfl

@[simp] theorem size_hanging (l : Label) (items : List Item) :
    size (.hanging l :: items) = size items :=
  List.countP_cons_of_neg (by simp [isCell])

@[simp] theorem size_append (xs ys : List Item) : size (xs ++ ys) = size xs + size ys := by
  simp [size]

@[simp] theorem size_map_cell {β : Type} (f : β → Cell) (xs : List β) :
    size (xs.map fun x => .cell (f x)) = xs.length := by
  induction xs with
  | nil => rfl
  | cons x xs ih => simp [ih]

end Item

theorem Lowered.size_instruction (op : Opcode) (ls : List Lowered) :
    Item.size (instruction op ls) = Item.size (ls.flatMap (·.setup)) + 1 + ls.length := by
  simp only [instruction, Item.size_append, Item.word, Item.size_cell,
    Item.size_map_cell (fun o : Lowered => o.cell)]
  omega

/-! ## Layouts -/

/-- How a linked program uses memory, as far as its code goes. -/
structure Layout where
  /-- The addresses of the labels. -/
  addresses : Addresses
  /-- The words that never change. -/
  frozen : Int → Option Int
  /-- The operand words that the code writes itself. -/
  scratch : Int → Prop
  not_scratch_of_frozen : ∀ {a v}, frozen a = some v → ¬ scratch a
  lt_of_frozen : ∀ {a v}, frozen a = some v → a < Memory.addressLimit
  lt_of_scratch : ∀ {a}, scratch a → a < Memory.addressLimit

namespace Layout

variable (L : Layout)

/-- A cell stands at an address: it is written by the code if it carries a label, and else never changes. -/
def CellAt (a : Nat) (c : Cell) : Prop :=
  (∀ l ∈ c.labels, L.addresses[l.index]? = some a) ∧
    if c.labels = [] then ∃ v, Assembly.evaluate L.addresses c.word = .ok v ∧ L.frozen a = some v
    else L.scratch a

/-- Items stand at an address and behind it. -/
def CodeAt : Nat → List Item → Prop
  | _, [] => True
  | a, .hanging l :: rest => L.addresses[l.index]? = some a ∧ CodeAt a rest
  | a, .cell c :: rest => L.CellAt a c ∧ CodeAt (a + 1) rest

/-- A word of data that the machine can address. -/
def Free (x : Int) : Prop :=
  0 ≤ x ∧ x < Memory.addressLimit ∧ ¬ L.scratch x

/-- The word `raw`, taken in the mode `mode`, has the value `v`, and this value is no scratch word. -/
def Reads (base : Int) (mem : Int → Int) (mode : Mode) (raw v : Int) : Prop :=
  match mode with
  | .position => L.Free raw ∧ mem raw = v
  | .immediate => raw = v
  | .relative => L.Free (base + raw) ∧ mem (base + raw) = v

/-- What is stored through the word `raw` in the mode `mode` is stored at the data word `x`. -/
def Stores (base : Int) (mode : Mode) (raw x : Int) : Prop :=
  match mode with
  | .position => L.Free x ∧ raw = x
  | .immediate => False
  | .relative => L.Free x ∧ base + raw = x

/-- The frozen words are there. -/
def Loaded (mem : Int → Int) : Prop :=
  ∀ ⦃a v⦄, L.frozen a = some v → mem a = v

variable {L}

theorem codeAt_append {a : Nat} {xs ys : List Item} :
    L.CodeAt a (xs ++ ys) ↔ L.CodeAt a xs ∧ L.CodeAt (a + Item.size xs) ys := by
  induction xs generalizing a with
  | nil => simp [CodeAt]
  | cons x xs ih =>
    cases x with
    | hanging l => simp only [List.cons_append, CodeAt, ih, Item.size_hanging, and_assoc]
    | cell c =>
      simp only [List.cons_append, CodeAt, ih, Item.size_cell, and_assoc, Nat.add_assoc,
        Nat.add_comm 1]

/-- The machine can address every word that a cell stands in. -/
theorem CellAt.lt {a : Nat} {c : Cell} (h : L.CellAt a c) : a < Memory.addressLimit := by
  obtain ⟨-, h⟩ := h
  split at h
  · obtain ⟨v, -, hfrozen⟩ := h
    exact_mod_cast L.lt_of_frozen hfrozen
  · exact_mod_cast L.lt_of_scratch h

/-- The machine can address every word of the code. -/
theorem CodeAt.lt {a k : Nat} {items : List Item} (h : L.CodeAt a items) (hk : k < Item.size items) :
    a + k < Memory.addressLimit := by
  induction items generalizing a k with
  | nil => cases hk
  | cons x items ih =>
    cases x with
    | hanging l => exact ih h.2 (by rwa [Item.size_hanging] at hk)
    | cell c =>
      rw [Item.size_cell] at hk
      cases k with
      | zero => exact h.1.lt
      | succ k =>
        have hlt := ih h.2 (Nat.lt_of_succ_lt_succ hk)
        rwa [Nat.add_assoc, Nat.add_comm 1] at hlt

/-- A data word keeps its place among the data when other data words change. -/
theorem Loaded.update {mem : Int → Int} {x : Int} (h : L.Loaded mem) (hx : L.frozen x = none)
    (v : Int) : L.Loaded (Function.update mem x v) := by
  intro a w ha
  have hne : a ≠ x := by
    rintro rfl
    rw [hx] at ha
    cases ha
  rw [Function.update_of_ne hne]
  exact h ha

end Layout

/-! ## Configurations -/

/-- A machine as its program means it. -/
structure Config where
  ip : Nat
  base : Int
  mem : Int → Int
  queue : Queue

namespace Layout

variable (L : Layout)

/-- The machine's data is as in `mem`. -/
def Shows (mem : Int → Int) (m : Machine) : Prop :=
  ∀ a : Nat, ¬ L.scratch a → m.memory.get a = mem a

/-- The machine looks like the configuration. -/
structure Matches (c : Config) (m : Machine) : Prop where
  ip : m.ip = .ofNat c.ip
  base : m.base = c.base
  shows : L.Shows c.mem m

/-- Every machine that looks like the first configuration reaches one that looks like the second, and no
scratch word outside the given range changes on the way. -/
def Leads (range : Nat → Prop) (c c' : Config) : Prop :=
  ∀ m, L.Matches c m →
    ∃ m', Machine.Reaches Queue.host (m, c.queue) (m', c'.queue) ∧ L.Matches c' m' ∧
      ∀ x : Nat, L.scratch x → ¬ range x → m'.memory.get x = m.memory.get x

variable {L}

/-- Nothing but scratch words in the given range differs between the two machines. -/
def Keeps (L : Layout) (range : Nat → Prop) (m m' : Machine) : Prop :=
  ∀ x : Nat, ¬ (L.scratch x ∧ range x) → m'.memory.get x = m.memory.get x

theorem Keeps.shows {range : Nat → Prop} {m m' : Machine} {mem : Int → Int}
    (h : L.Keeps range m m') (hm : L.Shows mem m) : L.Shows mem m' :=
  fun a ha => (h a fun hs => ha hs.1).trans (hm a ha)

theorem Keeps.trans {r₁ r₂ r : Nat → Prop} {m m' m'' : Machine} (h : L.Keeps r₁ m m')
    (k : L.Keeps r₂ m' m'') (h₁ : ∀ x, r₁ x → r x) (h₂ : ∀ x, r₂ x → r x) : L.Keeps r m m'' := by
  intro x hx
  rw [k x fun hs => hx ⟨hs.1, h₂ x hs.2⟩, h x fun hs => hx ⟨hs.1, h₁ x hs.2⟩]

theorem Leads.refl (range : Nat → Prop) (c : Config) : L.Leads range c c :=
  fun m hm => ⟨m, .refl _, hm, fun _ _ _ => rfl⟩

theorem Leads.trans {range : Nat → Prop} {c c' c'' : Config} (h : L.Leads range c c')
    (k : L.Leads range c' c'') : L.Leads range c c'' := by
  intro m hm
  obtain ⟨m', hreach, hm', hkept⟩ := h m hm
  obtain ⟨m'', hreach', hm'', hkept'⟩ := k m' hm'
  refine ⟨m'', hreach.trans hreach', hm'', fun x hx hrange => ?_⟩
  rw [hkept' x hx hrange, hkept x hx hrange]

theorem Leads.mono {range range' : Nat → Prop} {c c' : Config} (h : L.Leads range c c')
    (hsub : ∀ x, range x → range' x) : L.Leads range' c c' := by
  intro m hm
  obtain ⟨m', hreach, hm', hkept⟩ := h m hm
  exact ⟨m', hreach, hm', fun x hx hrange => hkept x hx fun hr => hrange (hsub x hr)⟩

/-! ## A scratch word that counts as data for a while -/

/-- The layout in which the word at `c` counts as data. -/
def reveal (L : Layout) (c : Int) : Layout where
  addresses := L.addresses
  frozen := L.frozen
  scratch x := L.scratch x ∧ x ≠ c
  not_scratch_of_frozen h hs := L.not_scratch_of_frozen h hs.1
  lt_of_frozen := L.lt_of_frozen
  lt_of_scratch hs := L.lt_of_scratch hs.1

/-- Code that does not cover the word is the same code when the word counts as data. -/
theorem CodeAt.reveal {a c : Nat} {items : List Item} (h : L.CodeAt a items)
    (hc : c < a ∨ a + Item.size items ≤ c) : (L.reveal c).CodeAt a items := by
  induction items generalizing a with
  | nil => trivial
  | cons x xs ih =>
    cases x with
    | hanging l => exact ⟨h.1, ih h.2 (by simpa using hc)⟩
    | cell cell =>
      rw [Item.size_cell] at hc
      refine ⟨⟨h.1.1, ?_⟩, ih h.2 (by omega)⟩
      have hcell := h.1.2
      split at hcell
      · next hnil =>
        rw [if_pos hnil]
        exact hcell
      · next hlabeled =>
        rw [if_neg hlabeled]
        exact ⟨hcell, by omega⟩

theorem Free.reveal {x : Int} (h : L.Free x) (c : Int) : (L.reveal c).Free x :=
  ⟨h.1, h.2.1, fun hs => h.2.2 hs.1⟩

theorem Loaded.reveal {mem : Int → Int} {c : Int} (h : L.Loaded mem) (hc : L.scratch c) (v : Int) :
    (L.reveal c).Loaded (Function.update mem c v) := by
  intro a w ha
  have hne : a ≠ c := by
    rintro rfl
    exact L.not_scratch_of_frozen ha hc
  rw [Function.update_of_ne hne]
  exact h ha

/-- A machine looks the same when a scratch word counts as data, with the content that it has. -/
theorem Matches.reveal {c : Config} {m : Machine} {x : Nat} (h : L.Matches c m) :
    (L.reveal x).Matches { c with mem := Function.update c.mem x (m.memory.get x) } m := by
  refine ⟨h.ip, h.base, fun a ha => ?_⟩
  change m.memory.get a = Function.update c.mem x (m.memory.get x) a
  by_cases hax : a = x
  · subst hax
    rw [Function.update_self]
  · have hne : (a : Int) ≠ x := by exact_mod_cast hax
    rw [Function.update_of_ne hne]
    exact h.shows a fun hs => ha ⟨hs, hne⟩

theorem Matches.of_reveal {ip : Nat} {base : Int} {mem : Int → Int} {q : Queue} {m : Machine} {x : Nat}
    {v : Int} (hx : L.scratch x)
    (h : (L.reveal x).Matches ⟨ip, base, Function.update mem x v, q⟩ m) :
    L.Matches ⟨ip, base, mem, q⟩ m ∧ m.memory.get x = v := by
  refine ⟨⟨h.ip, h.base, fun a ha => ?_⟩, ?_⟩
  · have hne : (a : Int) ≠ x := fun hax => ha (by rwa [hax])
    have : m.memory.get a = Function.update mem x v a := h.shows a fun hs => ha hs.1
    rw [this, Function.update_of_ne hne]
  · have : m.memory.get x = Function.update mem x v x := h.shows x fun hs => hs.2 rfl
    rw [this, Function.update_self]

end Layout

end Lamcode
