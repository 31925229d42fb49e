import Std.Data.TreeMap
import Lamcode.Journal
import Lamcode.Link.Item

/-!
# Lamcode.Link.Assembly — from items to an image

Linking has three steps. Hanging labels are put on the next cell, behind the labels it has; every label
gets the index of its cell as its address; and every word is replaced by its value under those
addresses. Each step has one way to fail.
-/

namespace Lamcode

/-- Why items cannot be linked. -/
inductive LinkCause where
  /-- A label is used and stands for no word. -/
  | unresolved
  /-- A label stands for two words. -/
  | duplicate
  /-- A label hangs behind the last word. -/
  | dangling
  deriving DecidableEq

/-- A label that cannot be linked, with its description. -/
structure LinkError where
  cause : LinkCause
  label : String
  deriving DecidableEq

/-- The text of the error. -/
def LinkError.message (e : LinkError) : String :=
  match e.cause with
  | .unresolved => "unresolved symbol: " ++ e.label
  | .duplicate => "label " ++ e.label ++ " is placed on more than one word"
  | .dangling => "label " ++ e.label ++ " hangs off the end of the program"

/-- The addresses of labels, by label number. -/
abbrev Addresses := Std.TreeMap Nat Nat

/-- A linked program: its words and the address of every label that stands for one of them. -/
structure Assembly where
  words : List Int
  addresses : Addresses

namespace Assembly

/-- Puts each hanging label on the next cell; `pending` are the labels that hang in front of the
items, in order. Fails with the first label that hangs behind the last cell. -/
def collapse (pending : List Label) : List Item → Except Label (List Cell)
  | [] =>
    match pending with
    | [] => .ok []
    | l :: _ => .error l
  | .hanging l :: rest => collapse (pending ++ [l]) rest
  | .cell c :: rest => (collapse [] rest).map ({ c with labels := c.labels ++ pending } :: ·)

/-- Gives labels the address `address`; fails with the first label that has one. -/
def placeLabels (address : Nat) : List Label → Addresses → Except Label Addresses
  | [], t => .ok t
  | l :: rest, t =>
    if t.contains l.index then .error l
    else placeLabels address rest (t.insert l.index address)

/-- Gives the labels of the cells from `address` on their addresses. -/
def place (address : Nat) : List Cell → Addresses → Except Label Addresses
  | [], t => .ok t
  | c :: rest, t =>
    match placeLabels address c.labels t with
    | .error l => .error l
    | .ok t => place (address + 1) rest t

mutual
/-- The value of a word; fails with the first label that has no address. -/
def evaluate (t : Addresses) : Word → Except Label Int
  | .num n => .ok n
  | .addr l =>
    match t[l.index]? with
    | some address => .ok address
    | none => .error l
  | .sum parts => evaluateSum t parts

/-- The sum of the values of words. -/
def evaluateSum (t : Addresses) : List Word → Except Label Int
  | [] => .ok 0
  | w :: rest =>
    match evaluate t w with
    | .error l => .error l
    | .ok v =>
      match evaluateSum t rest with
      | .error l => .error l
      | .ok sum => .ok (v + sum)
end

/-- The values of the words of cells, in order. -/
def evaluateCells (t : Addresses) : List Cell → Except Label (List Int)
  | [] => .ok []
  | c :: rest =>
    match evaluate t c.word with
    | .error l => .error l
    | .ok v => (evaluateCells t rest).map (v :: ·)

/-- Links items whose labels are described by `labels`. -/
def link (labels : LabelTable) (items : List Item) : Except LinkError Assembly := do
  let cells ← (collapse [] items).mapError fun l => ⟨.dangling, labels.describe l⟩
  let addresses ← (place 0 cells ∅).mapError fun l => ⟨.duplicate, labels.describe l⟩
  let words ← (evaluateCells addresses cells).mapError fun l => ⟨.unresolved, labels.describe l⟩
  return ⟨words, addresses⟩

/-- The records that linking leaves: one when all labels have their addresses. -/
def events (items : List Item) : List Event :=
  match collapse [] items with
  | .error _ => []
  | .ok cells =>
    match place 0 cells ∅ with
    | .error _ => []
    | .ok addresses => [.labelsPlaced addresses.size cells.length]

/-- The number of words. -/
def size (a : Assembly) : Nat :=
  a.words.length

/-- The address of a label. -/
def address? (a : Assembly) (l : Label) : Option Nat :=
  a.addresses[l.index]?

/-- Whether the first symbol comes before the second one: by address, then by label. -/
def symbolLe (a b : Label × Nat) : Bool :=
  a.2 < b.2 || (a.2 == b.2 && a.1.index ≤ b.1.index)

/-- The labels with their addresses, by address and then by label. -/
def symbols (a : Assembly) : List (Label × Nat) :=
  (a.addresses.toList.map fun (l, address) => ((⟨l⟩ : Label), address)).mergeSort symbolLe

end Assembly

end Lamcode
