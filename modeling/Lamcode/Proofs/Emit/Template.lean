import Mathlib.Data.List.Perm.Basic
import Lamcode.Proofs.Emit.Computation
import Lamcode.Proofs.Code.Layout

/-!
# Lamcode.Proofs.Emit.Template — code with its choices left open

Three operations have several encodings: copies, additions to a word, and jumps. A `Template` is code in which it is
left open which of them is taken. Its instances have the same size and carry and mention the same labels; an
operand word, and a label with it, moves in one case only, the source of a copy.

`Accounts` is the bookkeeping of labels: which ones the code carries, each once, and that it mentions none that was not
handed out yet.
-/

namespace Lamcode

/-! ## Labels in items -/

mutual

/-- The labels whose addresses a word is made of. -/
def Word.refs : Word → List Label
  | .num _ => []
  | .addr l => [l]
  | .sum parts => refsAll parts

/-- The labels whose addresses words are made of. -/
def Word.refsAll : List Word → List Label
  | [] => []
  | w :: rest => w.refs ++ refsAll rest

end

/-- The labels whose addresses are only part of a word. -/
def Word.folded : Word → List Label
  | .sum parts => refsAll parts
  | _ => []

namespace Item

/-- The labels that stand for the item's address. -/
def carried : Item → List Label
  | .cell c => c.labels
  | .hanging l => [l]

/-- The labels that the word of an item mentions. -/
def mentioned : Item → List Label
  | .cell c => c.word.refs
  | .hanging _ => []

/-- The labels that the word of an item mentions in a sum. -/
def summed : Item → List Label
  | .cell c => c.word.folded
  | .hanging _ => []

/-- The labels that stand for the addresses of items. -/
def labels (items : List Item) : List Label :=
  items.flatMap carried

/-- The labels that the words of items mention. -/
def refs (items : List Item) : List Label :=
  items.flatMap mentioned

/-- The labels that the words of items mention in a sum. -/
def folded (items : List Item) : List Label :=
  items.flatMap summed

@[simp] theorem labels_append (xs ys : List Item) : labels (xs ++ ys) = labels xs ++ labels ys :=
  List.flatMap_append

@[simp] theorem refs_append (xs ys : List Item) : refs (xs ++ ys) = refs xs ++ refs ys :=
  List.flatMap_append

@[simp] theorem folded_append (xs ys : List Item) : folded (xs ++ ys) = folded xs ++ folded ys :=
  List.flatMap_append

end Item

/-! ## Operations with several encodings -/

/-- An operand word with its mode. -/
structure OperandWord where
  mode : Mode
  cell : Cell

/-- The operand word of a lowered operand. -/
def Lowered.word (l : Lowered) : OperandWord :=
  ⟨l.mode, l.cell⟩

/-- The operand word, as an operand that needs no code. -/
def OperandWord.lowered (w : OperandWord) : Lowered :=
  .fixed w.mode w.cell

/-- A word that no label stands for, as an operand word. -/
def OperandWord.plain (mode : Mode) (w : Word) : OperandWord :=
  ⟨mode, .plain w⟩

/-- An operation with several encodings, and the operand words that it works on. -/
inductive Operation where
  | copy (source target : OperandWord)
  /-- The operands of an addition to a word carry no labels. -/
  | addTo (amountMode : Mode) (amount : Word) (outMode : Mode) (out : Word)
  | jump (target : OperandWord)

namespace Operation

/-- The encoding that is taken without a seed. -/
def first : Operation → List Item
  | .copy source target =>
    Lowered.instruction .add [source.lowered, .fixed .immediate (.plain (.num 0)), target.lowered]
  | .addTo amountMode amount outMode out =>
    Lowered.instruction .add
      [.fixed outMode (.plain out), .fixed amountMode (.plain amount), .fixed outMode (.plain out)]
  | .jump target => Lowered.instruction .jumpIfTrue [.fixed .immediate (.plain (.num 1)), target.lowered]

/-- The encodings of an operation. -/
inductive Form : Operation → List Item → Prop
  | copy {source target : OperandWord} {items : List Item} :
    items ∈ Emit.copyForms source.lowered target.lowered → Form (.copy source target) items
  | addOut (amountMode : Mode) (amount : Word) (outMode : Mode) (out : Word) :
    Form (.addTo amountMode amount outMode out) (Lowered.instruction .add
      [.fixed outMode (.plain out), .fixed amountMode (.plain amount), .fixed outMode (.plain out)])
  | addAmount (amountMode : Mode) (amount : Word) (outMode : Mode) (out : Word) :
    Form (.addTo amountMode amount outMode out) (Lowered.instruction .add
      [.fixed amountMode (.plain amount), .fixed outMode (.plain out), .fixed outMode (.plain out)])
  | jumpOnZero (target : OperandWord) :
    Form (.jump target)
      (Lowered.instruction .jumpIfFalse [.fixed .immediate (.plain (.num 0)), target.lowered])
  | jumpOnNonzero (target : OperandWord) {n : Int} : n ≠ 0 →
    Form (.jump target)
      (Lowered.instruction .jumpIfTrue [.fixed .immediate (.plain (.num n)), target.lowered])

/-- The labels that stand at different places in different encodings. -/
def moved : Operation → List Label
  | .copy source _ => source.cell.labels
  | _ => []

end Operation

/-! ## Templates -/

/-- One element of code whose choices are left open. -/
inductive Segment where
  | item (i : Item)
  | choice (op : Operation)

/-- Code whose choices are left open. -/
abbrev Template := List Segment

namespace Segment

/-- What the segment is without a seed. -/
def items : Segment → List Item
  | .item i => [i]
  | .choice op => op.first

/-- The labels that stand at different places in different instances. -/
def moved : Segment → List Label
  | .item _ => []
  | .choice op => op.moved

end Segment

namespace Template

/-- The instance without a seed. -/
def items (T : Template) : List Item :=
  T.flatMap Segment.items

/-- The labels that stand at different places in different instances. -/
def moved (T : Template) : List Label :=
  T.flatMap Segment.moved

theorem items_cons (s : Segment) (T : Template) : items (s :: T) = s.items ++ items T :=
  List.flatMap_cons

@[simp] theorem items_append (S T : Template) : items (S ++ T) = items S ++ items T :=
  List.flatMap_append

@[simp] theorem moved_append (S T : Template) : moved (S ++ T) = moved S ++ moved T :=
  List.flatMap_append

/-- Code without open choices. -/
def ofItems (items : List Item) : Template :=
  items.map .item

@[simp] theorem items_ofItems (xs : List Item) : (ofItems xs).items = xs := by
  simp [items, ofItems, List.flatMap_map, Segment.items]

@[simp] theorem moved_ofItems (xs : List Item) : (ofItems xs).moved = [] := by
  simp [moved, ofItems, List.flatMap_map, Segment.moved]

end Template

/-- The items are the code of the template with all choices made. -/
inductive Instance : Template → List Item → Prop
  | nil : Instance [] []
  | item (i : Item) {T : Template} {xs : List Item} : Instance T xs → Instance (.item i :: T) (i :: xs)
  | choice {op : Operation} {form : List Item} {T : Template} {xs : List Item} :
    op.Form form → Instance T xs → Instance (.choice op :: T) (form ++ xs)

namespace Instance

variable {S T : Template} {xs ys : List Item}

theorem append (h : Instance S xs) (k : Instance T ys) : Instance (S ++ T) (xs ++ ys) := by
  induction h with
  | nil => exact k
  | item i _ ih => exact .item i ih
  | choice hform _ ih =>
    rw [List.append_assoc]
    exact .choice hform ih

theorem ofItems (xs : List Item) : Instance (.ofItems xs) xs := by
  induction xs with
  | nil => exact .nil
  | cons x xs ih => exact .item x ih

theorem of_form {op : Operation} {form : List Item} (h : op.Form form) : Instance [.choice op] form := by
  have := choice h nil
  rwa [List.append_nil] at this

end Instance

/-! ## What all instances have in common -/

namespace Operation.Form

variable {op : Operation} {items : List Item}

/-- The encodings differ in the order of their words and in numbers only. -/
theorem flatMap_perm {f : Item → List Label} (hf : ∀ n, f (.word (.num n)) = []) (h : op.Form items) :
    (items.flatMap f).Perm (op.first.flatMap f) := by
  have hplain : ∀ n, f (.cell (.plain (.num n))) = [] := hf
  cases h with
  | copy h =>
    simp only [Emit.copyForms, List.mem_cons, List.not_mem_nil, or_false] at h
    rcases h with rfl | rfl | rfl | rfl <;>
      simp [first, Lowered.instruction, OperandWord.lowered, Lowered.fixed, hf, hplain]
  | addOut amountMode amount outMode out => exact .refl _
  | addAmount amountMode amount outMode out =>
    simp only [first, Lowered.instruction, Lowered.fixed, List.flatMap_cons, List.flatMap_nil, List.map_cons,
      List.map_nil, List.nil_append, List.append_nil, hf]
    rw [← List.append_assoc, ← List.append_assoc]
    exact List.perm_append_comm.append_right _
  | jumpOnZero target => simp [first, Lowered.instruction, OperandWord.lowered, Lowered.fixed, hf, hplain]
  | jumpOnNonzero target _ =>
    simp [first, Lowered.instruction, OperandWord.lowered, Lowered.fixed, hf, hplain]

theorem size_eq (h : op.Form items) : Item.size items = Item.size op.first := by
  cases h with
  | copy h =>
    simp only [Emit.copyForms, List.mem_cons, List.not_mem_nil, or_false] at h
    rcases h with rfl | rfl | rfl | rfl <;> rfl
  | _ => rfl

end Operation.Form

namespace Instance

variable {T : Template} {xs : List Item}

theorem flatMap_perm {f : Item → List Label} (hf : ∀ n, f (.word (.num n)) = []) (h : Instance T xs) :
    (xs.flatMap f).Perm (T.items.flatMap f) := by
  induction h with
  | nil => exact .refl _
  | item i _ ih => exact ih.append_left (f i)
  | choice hform _ ih =>
    rw [List.flatMap_append, Template.items_cons, List.flatMap_append]
    exact (hform.flatMap_perm hf).append ih

/-- All instances carry the same labels. -/
theorem labels_perm (h : Instance T xs) : (Item.labels xs).Perm (Item.labels T.items) :=
  h.flatMap_perm fun _ => rfl

/-- All instances mention the same labels. -/
theorem refs_perm (h : Instance T xs) : (Item.refs xs).Perm (Item.refs T.items) :=
  h.flatMap_perm fun _ => rfl

theorem size_eq (h : Instance T xs) : Item.size xs = Item.size T.items := by
  induction h with
  | nil => rfl
  | item i _ ih => cases i <;> simp [Template.items, Segment.items, ih]
  | choice hform _ ih =>
    rw [Item.size_append, hform.size_eq, ih, Template.items_cons, Item.size_append]
    rfl

end Instance

/-! ## Bookkeeping -/

/-- The code carries each of the labels, in some order, and mentions labels below `m` only. In sums it mentions only
reserved ones, and those that choices move are not reserved. -/
structure Accounts (labels : List Label) (m : Nat) (T : Template) : Prop where
  labels_perm : (Item.labels T.items).Perm labels
  refs : ∀ l ∈ Item.refs T.items, l.index < m
  folded : ∀ l ∈ Item.folded T.items, l.index < LabelTable.reserved.size
  moved : ∀ l ∈ T.moved, LabelTable.reserved.size ≤ l.index

namespace Accounts

variable {labels labels' : List Label} {m m' : Nat} {S T : Template}

theorem nil (m : Nat) : Accounts [] m [] :=
  ⟨.nil, fun _ h => (nomatch h), fun _ h => (nomatch h), fun _ h => (nomatch h)⟩

theorem ofItems (items : List Item) (hrefs : ∀ l ∈ Item.refs items, l.index < m)
    (hfolded : ∀ l ∈ Item.folded items, l.index < LabelTable.reserved.size) :
    Accounts (Item.labels items) m (.ofItems items) where
  labels_perm := by rw [Template.items_ofItems]
  refs := by rwa [Template.items_ofItems]
  folded := by rwa [Template.items_ofItems]
  moved l hl := by
    rw [Template.moved_ofItems] at hl
    exact nomatch hl

theorem append (h : Accounts labels m S) (k : Accounts labels' m T) :
    Accounts (labels ++ labels') m (S ++ T) where
  labels_perm := by
    rw [Template.items_append, Item.labels_append]
    exact h.labels_perm.append k.labels_perm
  refs l hl := by
    rw [Template.items_append, Item.refs_append] at hl
    exact (List.mem_append.1 hl).elim (h.refs l) (k.refs l)
  folded l hl := by
    rw [Template.items_append, Item.folded_append] at hl
    exact (List.mem_append.1 hl).elim (h.folded l) (k.folded l)
  moved l hl := by
    rw [Template.moved_append] at hl
    exact (List.mem_append.1 hl).elim (h.moved l) (k.moved l)

theorem mono (h : Accounts labels m T) (hm : m ≤ m') : Accounts labels m' T :=
  { h with refs := fun l hl => Nat.lt_of_lt_of_le (h.refs l hl) hm }

theorem perm (h : Accounts labels m T) (hlabels : labels.Perm labels') : Accounts labels' m T :=
  { h with labels_perm := h.labels_perm.trans hlabels }

/-- The order of the segments does not matter. -/
theorem reorder (h : Accounts labels m S) (hperm : T.Perm S) : Accounts labels m T where
  labels_perm := ((hperm.flatMap_right _).flatMap_right _).trans h.labels_perm
  refs l hl := h.refs l (((hperm.flatMap_right _).flatMap_right _).subset hl)
  folded l hl := h.folded l (((hperm.flatMap_right _).flatMap_right _).subset hl)
  moved l hl := h.moved l ((hperm.flatMap_right _).subset hl)

/-- The last words are those of an operation with several encodings. -/
theorem choose (items : List Item) {op : Operation} (h : Accounts labels m (S ++ .ofItems items))
    (hop : ∀ {f : Item → List Label}, (∀ k, f (.word (.num k)) = []) → op.first.flatMap f = items.flatMap f)
    (hmoved : ∀ l ∈ op.moved, LabelTable.reserved.size ≤ l.index) :
    Accounts labels m (S ++ [.choice op]) := by
  have hitems : ∀ {f : Item → List Label}, (∀ k, f (.word (.num k)) = []) →
      (Template.items (S ++ [.choice op])).flatMap f = (Template.items (S ++ .ofItems items)).flatMap f := by
    intro f hf
    rw [Template.items_append, Template.items_append, Template.items_ofItems, List.flatMap_append,
      List.flatMap_append, ← hop hf]
    simp [Template.items, Segment.items]
  refine ⟨?_, fun l hl => h.refs l ?_, fun l hl => h.folded l ?_, fun l hl => ?_⟩
  · rw [Item.labels, hitems fun _ => rfl]
    exact h.labels_perm
  · rwa [Item.refs, ← hitems fun _ => rfl]
  · rwa [Item.folded, ← hitems fun _ => rfl]
  · rw [Template.moved_append] at hl
    rcases List.mem_append.1 hl with hl | hl
    · exact h.moved l (by rw [Template.moved_append]; exact List.mem_append_left _ hl)
    · exact hmoved l (by simpa [Template.moved, Segment.moved] using hl)

end Accounts

namespace Label

/-- The labels that are handed out from `n` up to `n'`. -/
def range (n n' : Nat) : List Label :=
  (List.range' n (n' - n)).map Label.mk

@[simp] theorem range_self (n : Nat) : range n n = [] := by
  simp [range]

theorem range_eq_nil {n n' : Nat} : range n n' = [] ↔ n' ≤ n := by
  simp [range]
  omega

theorem range_append {n n₁ n₂ : Nat} (h : n ≤ n₁) (h' : n₁ ≤ n₂) : range n n₁ ++ range n₁ n₂ = range n n₂ := by
  rw [range, range, range, ← List.map_append]
  congr 1
  have := List.range'_append_1 (s := n) (m := n₁ - n) (n := n₂ - n₁)
  rwa [show n + (n₁ - n) = n₁ by omega, show n₁ - n + (n₂ - n₁) = n₂ - n by omega] at this

theorem range_cons {n n' : Nat} (h : n < n') : range n n' = ⟨n⟩ :: range (n + 1) n' := by
  rw [← range_append (Nat.le_add_right n 1) h]
  simp [range]

theorem range_concat {n n' : Nat} (h : n ≤ n') : range n (n' + 1) = range n n' ++ [⟨n'⟩] := by
  rw [← range_append h (Nat.le_add_right n' 1)]
  simp [range]

theorem mem_range {n n' : Nat} {l : Label} : l ∈ range n n' ↔ n ≤ l.index ∧ l.index < n' := by
  constructor
  · intro h
    obtain ⟨i, hi, rfl⟩ := List.mem_map.1 h
    have := List.mem_range'_1.1 hi
    simp only
    omega
  · rintro ⟨hle, hlt⟩
    exact List.mem_map.2 ⟨l.index, List.mem_range'_1.2 ⟨hle, by omega⟩, rfl⟩

theorem nodup_range (n n' : Nat) : (range n n').Nodup :=
  List.Pairwise.map Label.mk (fun _ _ hne h => hne (congrArg index h)) (List.nodup_range' ..)

end Label

end Lamcode
