import Std.Data.ExtTreeMap
import Lamcode.Machine.Fault

/-!
# Lamcode.Machine.Memory — sparse word memory

Every address below 2^64 holds an integer of any size, zero until something else is stored. Only
the nonzero words are kept, so two memories that read alike at every address are equal
(`Memory.ext_get`).
-/

namespace Lamcode

/-- A memory: its nonzero words by address. -/
structure Memory where
  cells : Std.ExtTreeMap Nat Int
  nonzero : ∀ a : Nat, cells[a]? ≠ some 0

namespace Memory

/-- The memory of zeros. -/
def empty : Memory where
  cells := ∅
  nonzero a := by simp

/-- The word at an address. -/
def get (m : Memory) (a : Nat) : Int :=
  (m.cells[a]?).getD 0

/-- The memory with one word changed. A zero is stored by forgetting the word. -/
def set (m : Memory) (a : Nat) (v : Int) : Memory :=
  if h : v = 0 then
    { cells := m.cells.erase a
      nonzero := fun b => by
        rw [Std.ExtTreeMap.getElem?_erase]
        split
        · simp
        · exact m.nonzero b }
  else
    { cells := m.cells.insert a v
      nonzero := fun b => by
        rw [Std.ExtTreeMap.getElem?_insert]
        split
        · simpa using h
        · exact m.nonzero b }

@[simp] theorem get_empty (a : Nat) : empty.get a = 0 := by
  simp [get, empty]

/-- Storing changes the word at the address and no other. -/
theorem get_set (m : Memory) (a : Nat) (v : Int) (b : Nat) :
    (m.set a v).get b = if a = b then v else m.get b := by
  unfold get set
  split
  · next h =>
    subst h
    by_cases hab : a = b <;> simp [Std.ExtTreeMap.getElem?_erase, hab]
  · by_cases hab : a = b <;> simp [Std.ExtTreeMap.getElem?_insert, hab]

/-- Memories that read alike everywhere are equal. -/
theorem ext_get {m n : Memory} (h : ∀ a, m.get a = n.get a) : m = n := by
  obtain ⟨cm, hm⟩ := m
  obtain ⟨cn, hn⟩ := n
  have : cm = cn := by
    refine Std.ExtTreeMap.ext_getElem? fun a => ?_
    have ha := h a
    have h1 := hm a
    have h2 := hn a
    simp only [get] at ha
    cases hc : cm[a]? <;> cases hd : cn[a]? <;> simp_all
  subst this
  rfl

/-- Stores the words one after the other from an address on. -/
def writeFrom (m : Memory) (a : Nat) : List Int → Memory
  | [] => m
  | w :: ws => writeFrom (m.set a w) (a + 1) ws

/-- The memory that holds the words from address 0 on. -/
def ofWords (words : List Int) : Memory :=
  empty.writeFrom 0 words

theorem get_writeFrom (words : List Int) (m : Memory) (a b : Nat) :
    (m.writeFrom a words).get b =
      if a ≤ b ∧ b < a + words.length then words[b - a]?.getD 0 else m.get b := by
  induction words generalizing m a with
  | nil =>
    rw [if_neg (by simp)]
    rfl
  | cons w ws ih =>
    rw [writeFrom, ih, get_set]
    by_cases hab : a = b
    · subst hab
      rw [if_neg (by omega), if_pos rfl, if_pos (by simp only [List.length_cons]; omega), Nat.sub_self]
      rfl
    · by_cases h : a + 1 ≤ b ∧ b < a + 1 + ws.length
      · rw [if_pos h, if_pos (by simp only [List.length_cons]; omega),
          show b - a = b - (a + 1) + 1 by omega, List.getElem?_cons_succ]
      · rw [if_neg h, if_neg hab, if_neg (by simp only [List.length_cons]; omega)]

/-- Behind the words there are zeros. -/
theorem get_ofWords (words : List Int) (a : Nat) : (ofWords words).get a = words[a]?.getD 0 := by
  rw [ofWords, get_writeFrom]
  by_cases h : a < words.length
  · rw [if_pos (by omega), Nat.sub_zero]
  · rw [if_neg (by omega), get_empty, List.getElem?_eq_none (by omega), Option.getD_none]

/-- The first number that is no address. -/
def addressLimit : Nat := UInt64.size

/-- Reads a word as an address. -/
def address (word : Int) : Except Fault Nat :=
  if word < 0 then .error (.negativeAddress word)
  else if word.toNat < addressLimit then .ok word.toNat
  else .error (.addressOutOfRange word)

end Memory

end Lamcode
