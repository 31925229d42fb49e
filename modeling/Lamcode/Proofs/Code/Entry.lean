import Lamcode.Proofs.Code.Meaning
import Lamcode.Proofs.Code.Operand
import Lamcode.Proofs.Link.Sections
import Lamcode.Proofs.Result

/-!
# Lamcode.Proofs.Code.Entry — machines that enter code which writes its own operand words

The code of an instruction writes operand words that stand further on in it, each under a label that was handed out for
this code alone. An `Entry` is a machine that is about to run such code, with the words that the code may write
(`patched`). Everything else stays as it is until the instruction itself runs (`Entry.Agrees`).

`Machine.Runs` is the contract of code whose outcome is a value or a fault; contracts compose as the computations of
their outcomes do (`Machine.Runs.bind`). `Entry.Prepares` is the contract of a lowered operand: its word holds in the
end what was meant. `Entry.Performs` is that of an instruction with the code of its operands: there is one lemma per
kind of instruction.
-/

namespace Lamcode

open Assembly Machine

/-! ## Code with an outcome -/

namespace Machine

variable {σ : Type} {host : Host σ} {s : σ} {β γ : Type} {m : Machine}

/-- Without the host, the machine gets to where `good` holds of the value, or to where `bad` holds and the next step is
the fault. -/
def Runs (host : Host σ) (s : σ) (m : Machine) (r : Except Fault β) (good : β → Machine → Prop)
    (bad : Machine → Prop) : Prop :=
  ∃ m', Reaches host (m, s) (m', s) ∧
    match r with
    | .ok x => good x m'
    | .error e => bad m' ∧ m'.step host s = (.error e, m', s)

namespace Runs

variable {r : Except Fault β} {good : β → Machine → Prop} {bad : Machine → Prop}

theorem pure {x : β} (h : good x m) : Runs host s m (.ok x) good bad :=
  ⟨m, .refl _, h⟩

/-- What comes next starts where the value is there; a fault stays what it is. -/
theorem bind {f : β → Except Fault γ} {good' : γ → Machine → Prop} (h : Runs host s m r good bad)
    (k : ∀ x m', r = .ok x → good x m' → Runs host s m' (f x) good' bad) : Runs host s m (r >>= f) good' bad := by
  obtain ⟨m', hreach, h⟩ := h
  cases r with
  | error e => exact ⟨m', hreach, h⟩
  | ok x =>
    obtain ⟨m'', hreach', h'⟩ := k x m' rfl h
    exact ⟨m'', hreach.trans hreach', h'⟩

theorem mono {good' : β → Machine → Prop} {bad' : Machine → Prop} (h : Runs host s m r good bad)
    (hgood : ∀ x m', good x m' → good' x m') (hbad : ∀ m', bad m' → bad' m') : Runs host s m r good' bad' := by
  obtain ⟨m', hreach, h⟩ := h
  cases r with
  | error e => exact ⟨m', hreach, hbad m' h.1, h.2⟩
  | ok x => exact ⟨m', hreach, hgood x m' h⟩

end Runs

/-- No word outside the range differs between the two machines. -/
def Kept (range : Nat → Prop) (m m' : Machine) : Prop :=
  ∀ x, ¬ range x → m'.memory.get x = m.memory.get x

theorem Kept.trans {r₁ r₂ r : Nat → Prop} {m m' m'' : Machine} (h : Kept r₁ m m') (k : Kept r₂ m' m'')
    (h₁ : ∀ x, r₁ x → r x) (h₂ : ∀ x, r₂ x → r x) : Kept r m m'' := by
  intro x hx
  rw [k x fun hs => hx (h₂ x hs), h x fun hs => hx (h₁ x hs)]

/-- Two pieces of code, one behind the other, that both write the word at `c`. -/
theorem Kept.append {c a i j : Nat} {m m' m'' : Machine} (h : Kept (fun y => y = c ∨ Span a i y) m m')
    (k : Kept (fun y => y = c ∨ Span (a + i) j y) m' m'') : Kept (fun y => y = c ∨ Span a (i + j) y) m m'' := by
  refine h.trans k ?_ ?_ <;> rintro y (rfl | hs)
  all_goals first | exact .inl rfl | exact .inr (by unfold Span at hs ⊢; omega)

end Machine

/-- A copy is an instruction with three operands in all its forms. -/
theorem Emit.four_le_size {source target : Lowered} {items : List Item} (h : items ∈ copyForms source target) :
    4 ≤ Item.size items := by
  simp only [copyForms, List.mem_cons, List.not_mem_nil, or_false] at h
  rcases h with rfl | rfl | rfl | rfl <;> rw [Lowered.size_instruction] <;>
    simp only [List.length_cons, List.length_nil] <;> omega

/-! ## Entering code -/

/-- A machine that is about to run code. -/
structure Entry where
  /-- The addresses of the labels. -/
  addresses : Addresses
  /-- The labels from this one on were handed out for the code. -/
  first : Nat
  machine : Machine
  /-- The words that the code may write before its instruction runs. -/
  patched : Nat → Prop

namespace Entry

variable (E : Entry)

/-- A cell of the code stands at an address. It is written by the code if it carries a label of the code; without any
label it is what it was linked to. -/
structure CellAt (a : Nat) (c : Cell) : Prop where
  lt : a < Memory.addressLimit
  address : ∀ l ∈ c.labels, E.addresses[l.index]? = some a
  patched : E.patched a ↔ ∃ l ∈ c.labels, E.first ≤ l.index
  word : c.labels = [] → E.machine.memory.get a = c.word.value (addressIn E.addresses)

/-- Items stand at an address and behind it. -/
def CodeAt (a : Nat) (items : List Item) : Prop :=
  ∀ k c, (Item.cells items)[k]? = some c → E.CellAt (a + k) c

/-- Nothing but the instruction address and words that the code may write differs from the machine of the entry. -/
structure Agrees (m : Machine) : Prop where
  base : m.base = E.machine.base
  status : m.status = E.machine.status
  memory : ∀ a, ¬ E.patched a → m.memory.get a = E.machine.memory.get a

variable {E}

theorem codeAt_append {a : Nat} {xs ys : List Item} :
    E.CodeAt a (xs ++ ys) ↔ E.CodeAt a xs ∧ E.CodeAt (a + Item.size xs) ys := by
  have hcells : Item.cells (xs ++ ys) = Item.cells xs ++ Item.cells ys := List.filterMap_append
  rw [← Item.length_cells xs]
  constructor
  · intro h
    refine ⟨fun k c hk => h k c ?_, fun k c hk => ?_⟩
    · rw [hcells, List.getElem?_append_left]
      · exact hk
      · exact (List.getElem?_eq_some_iff.1 hk).1
    · rw [Nat.add_assoc]
      refine h _ c ?_
      rw [hcells, List.getElem?_append_right (Nat.le_add_right _ _), Nat.add_sub_cancel_left]
      exact hk
  · rintro ⟨hxs, hys⟩ k c hk
    rw [hcells] at hk
    by_cases hlt : k < (Item.cells xs).length
    · rw [List.getElem?_append_left hlt] at hk
      exact hxs k c hk
    · rw [List.getElem?_append_right (by omega)] at hk
      have := hys _ c hk
      rwa [show a + (Item.cells xs).length + (k - (Item.cells xs).length) = a + k by omega] at this

theorem codeAt_cell {a : Nat} {c : Cell} {items : List Item} :
    E.CodeAt a (.cell c :: items) ↔ E.CellAt a c ∧ E.CodeAt (a + 1) items := by
  rw [← List.singleton_append, codeAt_append]
  refine and_congr_left fun _ => ⟨fun h => h 0 c rfl, fun h k c' hk => ?_⟩
  cases k with
  | zero =>
    cases hk
    exact h
  | succ k => cases hk

/-- The machine can address every word of the code. -/
theorem CodeAt.lt {a k : Nat} {items : List Item} (h : E.CodeAt a items) (hk : k < Item.size items) :
    a + k < Memory.addressLimit := by
  rw [← Item.length_cells] at hk
  exact (h k _ (List.getElem?_eq_getElem hk)).lt

variable (E) in
theorem agrees_self : E.Agrees E.machine :=
  ⟨rfl, rfl, fun _ _ => rfl⟩

namespace Agrees

variable {m : Machine}

/-- What is read from words that the code does not write is the same all the time. -/
theorem value_eq (hm : E.Agrees m) {x : Meaning} (hx : ∀ a ∈ x.words E.machine, ¬ E.patched a) :
    x.value m = x.value E.machine :=
  Meaning.value_congr hm.base fun a ha => hm.memory a (hx a ha)

/-- The code may write its own words. -/
theorem set (hm : E.Agrees m) {c : Nat} (hc : E.patched c) (v : Int) (ip : UInt64) :
    E.Agrees { m with memory := m.memory.set c v, ip } := by
  refine ⟨hm.base, hm.status, fun a ha => ?_⟩
  have hne : c ≠ a := by
    rintro rfl
    exact ha hc
  rw [Memory.get_set, if_neg hne]
  exact hm.memory a ha

/-- A cell without a label holds what it was linked to. -/
theorem word_eq (hm : E.Agrees m) {a : Nat} {c : Cell} (hc : E.CellAt a c) (hlabels : c.labels = []) :
    m.memory.get a = c.word.value (addressIn E.addresses) := by
  rw [← hc.word hlabels]
  refine hm.memory a fun hpatched => ?_
  obtain ⟨l, hl, -⟩ := hc.patched.1 hpatched
  rw [hlabels] at hl
  cases hl

end Agrees

/-! ## Operands that are ready -/

variable {σ : Type} {host : Host σ} {s : σ}

/-- The code of the operand puts what the operand means into the operand word, wherever the code and the word stand,
or runs into the fault instead. -/
structure Prepares (host : Host σ) (s : σ) (E : Entry) (l : Lowered) (r : Except Fault Meaning) : Prop where
  eq_of_fixed : l.isFixed = true → l.cell.labels = [] →
    r = .ok ⟨l.mode, l.cell.word.value (addressIn E.addresses)⟩
  mode_eq : ∀ {x}, r = .ok x → x.mode = l.mode
  runs : ∀ {a c : Nat} {m : Machine}, E.CodeAt a l.setup → E.CellAt c l.cell → ¬ Span a (Item.size l.setup) c →
    E.Agrees m → m.ip = .ofNat a → Runs host s m r (fun x m' => m'.memory.get c = x.raw ∧
      m'.ip = .ofNat (a + Item.size l.setup) ∧ E.Agrees m' ∧
      Kept (fun y => y = c ∨ Span a (Item.size l.setup) y) m m') E.Agrees

namespace Prepares

variable {l : Lowered} {r : Except Fault Meaning}

/-- A constant word is ready at once, with the content that it has. -/
theorem const (mode : Mode) {cell : Cell} (hlabels : ∀ l ∈ cell.labels, l.index < E.first) :
    Prepares host s E (.fixed mode cell) (.ok ⟨mode, cell.content E.addresses E.machine.memory⟩) where
  eq_of_fixed _ hplain := by
    have hplain : cell.labels = [] := hplain
    simp only [Cell.content, hplain, Lowered.fixed]
  mode_eq hx := by
    cases hx
    rfl
  runs := by
    intro a c m _ (hc : E.CellAt c cell) _ hm hip
    have hpatched : ¬ E.patched c := by
      rw [hc.patched]
      rintro ⟨l, hl, hle⟩
      exact absurd (hlabels l hl) (by omega)
    refine .pure ⟨?_, hip, hm, fun _ _ => rfl⟩
    change m.memory.get c = cell.content E.addresses E.machine.memory
    rcases hcell : cell.labels with _ | ⟨l, rest⟩
    · rw [hm.word_eq hc hcell]
      simp only [Cell.content, hcell]
    · have hl := hc.address l (by simp [hcell])
      simp only [Cell.content, hcell, addressIn_eq hl]
      exact hm.memory c hpatched

theorem plain (mode : Mode) (w : Word) :
    Prepares host s E (.fixed mode (.plain w)) (.ok ⟨mode, w.value (addressIn E.addresses)⟩) :=
  const mode fun _ hl => nomatch hl

/-- Two words that the linker adds up. -/
theorem sum (mode : Mode) (v w : Word) : Prepares host s E (.fixed mode (.plain (.sum [v, w])))
    (.ok ⟨mode, v.value (addressIn E.addresses) + w.value (addressIn E.addresses)⟩) := by
  have h : Prepares host s E (.fixed mode (.plain (.sum [v, w]))) _ := plain mode (.sum [v, w])
  rwa [Word.value, Word.valueSum, Word.valueSum, Word.valueSum, Int.add_zero] at h

theorem wordAt {tag : Label} {c : Nat} (htag : E.addresses[tag.index]? = some c) :
    Prepares host s E (.wordAt tag) (.ok ⟨.position, c⟩) := by
  have h : Prepares host s E (.wordAt tag) (.ok ⟨.position, Word.value (addressIn E.addresses) (.addr tag)⟩) :=
    plain .position (.addr tag)
  rwa [Word.value, addressIn_eq htag] at h

/-- The same word in another mode. -/
theorem withMode (h : Prepares host s E l r) (mode : Mode) :
    Prepares host s E { l with mode } (do return ⟨mode, (← r).raw⟩) where
  eq_of_fixed hfixed hplain := by
    rw [h.eq_of_fixed hfixed hplain]
    rfl
  mode_eq hx := by
    cases r <;> cases hx
    rfl
  runs hcode hc hout hm hip := (h.runs hcode hc hout hm hip).bind fun _ _ _ hx => .pure hx

/-- Operands are prepared one after the other, and the words of all of them hold in the end. -/
theorem all {ls : List Lowered} {rs : List (Except Fault Meaning)} (h : List.Forall₂ (Prepares host s E) ls rs)
    {a c : Nat} {m : Machine} (hcode : E.CodeAt a (ls.flatMap (·.setup)))
    (hcells : E.CodeAt c (ls.map fun o => .cell o.cell)) (hc : a + Item.size (ls.flatMap (·.setup)) ≤ c)
    (hm : E.Agrees m) (hip : m.ip = .ofNat a) :
    Runs host s m (rs.mapM id) (fun xs m' => xs.map (·.mode) = ls.map (·.mode) ∧
      (∀ i x, xs[i]? = some x → m'.memory.get (c + i) = x.raw) ∧
      m'.ip = .ofNat (a + Item.size (ls.flatMap (·.setup))) ∧ E.Agrees m' ∧
      Kept (fun y => Span c ls.length y ∨ Span a (Item.size (ls.flatMap (·.setup))) y) m m') E.Agrees := by
  induction h generalizing a c m with
  | nil => exact .pure ⟨rfl, by simp, hip, hm, fun _ _ => rfl⟩
  | @cons l r ls rs hl _ ih =>
    rw [List.flatMap_cons, codeAt_append] at hcode
    rw [List.flatMap_cons, Item.size_append] at hc ⊢
    rw [List.map_cons, codeAt_cell] at hcells
    rw [List.mapM_cons]
    refine (hl.runs hcode.1 hcells.1 (fun hs => by unfold Span at hs; omega) hm hip).bind ?_
    rintro x m₁ hx ⟨hraw, hip₁, hm₁, hkept₁⟩
    refine (ih hcode.2 hcells.2 (by omega) hm₁ hip₁).bind ?_
    rintro xs m₂ - ⟨hmodes, hraws, hip₂, hm₂, hkept₂⟩
    refine .pure ⟨?_, ?_, by rw [hip₂, Nat.add_assoc], hm₂, ?_⟩
    · rw [List.map_cons, List.map_cons, hl.mode_eq hx, hmodes]
    · rintro (_ | i) y hy
      · -- the code of the later operands leaves the word of the first one alone
        obtain rfl : x = y := by simpa using hy
        rw [Nat.add_zero, hkept₂ c, hraw]
        rintro (hs | hs) <;> unfold Span at hs <;> omega
      · rw [show c + (i + 1) = c + 1 + i by omega]
        exact hraws i y (by simpa using hy)
    · refine hkept₁.trans hkept₂ ?_ ?_
      · rintro y (rfl | hs)
        · exact .inl ⟨Nat.le_refl _, by simp⟩
        · exact .inr (by unfold Span at hs ⊢; omega)
      · rintro y (hs | hs)
        · exact .inl (by unfold Span at hs ⊢; simp only [List.length_cons]; omega)
        · exact .inr (by unfold Span at hs ⊢; omega)

end Prepares

/-! ## In front of an instruction -/

/-- The machine is in front of the instruction at `here`, and the operands hold what was meant. -/
structure Ready (E : Entry) (here : Nat) (op : Opcode) (xs : List Meaning) (m : Machine) : Prop where
  agrees : E.Agrees m
  ip : m.ip = .ofNat here
  lt : here < Memory.addressLimit
  word : m.memory.get here = Instruction.encode op (xs.map (·.mode))
  operand : ∀ i x, xs[i]? = some x → m.operand i = x.raw

namespace Ready

variable {here : Nat} {op : Opcode} {xs : List Meaning} {m : Machine}

theorem ip_add (h : E.Ready here op xs m) (n : Nat) : m.ip + .ofNat n = .ofNat (here + n) := by
  rw [h.ip, UInt64.ofNat_add]

theorem load_eq (h : E.Ready here op xs m) {i : Nat} {x : Meaning} (hi : xs[i]? = some x)
    (hx : ∀ a ∈ x.words E.machine, ¬ E.patched a) :
    m.load ⟨op, xs.map (·.mode)⟩ i = x.value E.machine := by
  rw [← h.agrees.value_eq hx]
  have hmode : Instruction.mode ⟨op, xs.map (·.mode)⟩ i = x.mode := by
    simp [Instruction.mode, List.getD_eq_getElem?_getD, hi]
  unfold load Meaning.value Meaning.place?
  rw [hmode, h.operand i x hi]
  cases x.mode <;> rfl

theorem target_eq (h : E.Ready here op xs m) {i : Nat} {x : Meaning} (hi : xs[i]? = some x) :
    m.target ⟨op, xs.map (·.mode)⟩ i = x.target E.machine here := by
  rw [← Meaning.target_congr h.agrees.base]
  have hmode : Instruction.mode ⟨op, xs.map (·.mode)⟩ i = x.mode := by
    simp [Instruction.mode, List.getD_eq_getElem?_getD, hi]
  unfold Machine.target Meaning.target Meaning.place?
  rw [hmode, h.operand i x hi, toNat_ip h.ip h.lt]
  cases x.mode <;> rfl

theorem step_eq (h : E.Ready here op xs m) (hlength : xs.length = op.arity) :
    m.step host s = m.execute host ⟨op, xs.map (·.mode)⟩ s :=
  step_eq_execute (by rw [List.length_map, hlength]) (by rw [toNat_ip h.ip h.lt, h.word])

/-! One lemma per kind of instruction: its step is what the action demands. -/

variable {x y z : Meaning}

theorem step_combined {f : Int → Int → Int} (hf : op.binary? = some f) (h : E.Ready here op [x, y, z] m)
    (hx : ∀ a ∈ x.words E.machine, ¬ E.patched a) (hy : ∀ a ∈ y.words E.machine, ¬ E.patched a) :
    m.step host s =
      m.meet host s (Action.demanded (here + 4) m (Action.combined E.machine here f x y z)) := by
  have harity : op.arity = 3 := by cases op <;> first | rfl | cases hf
  have hexecute : m.step host s = m.binary ⟨op, [x, y, z].map (·.mode)⟩ f s := by
    rw [h.step_eq harity.symm]
    cases op <;> cases hf <;> rfl
  -- the machine runs into the fault of the operand that comes first, and so does the action
  rw [hexecute, binary, binaryOperands, h.load_eq (i := 0) rfl hx, h.load_eq (i := 1) rfl hy, h.target_eq (i := 2) rfl,
    Action.combined, show m.ip + 4 = .ofNat (here + 4) from h.ip_add 4]
  cases x.value E.machine with
  | error e => rfl
  | ok v =>
    cases y.value E.machine with
    | error e => rfl
    | ok w => cases z.target E.machine here <;> rfl

theorem step_branched {onZero : Bool} (h : E.Ready here (jumpOn onZero) [x, y] m)
    (hx : ∀ a ∈ x.words E.machine, ¬ E.patched a) (hy : ∀ a ∈ y.words E.machine, ¬ E.patched a) :
    m.step host s = m.meet host s (Action.demanded (here + 3) m (Action.branched E.machine onZero x y)) := by
  have hexecute : m.step host s = m.jumpStep ⟨jumpOn onZero, [x, y].map (·.mode)⟩ onZero s := by
    cases onZero <;> exact h.step_eq rfl
  rw [hexecute, jumpStep, h.load_eq (i := 0) rfl hx, h.load_eq (i := 1) rfl hy, Action.branched,
    show m.ip + 3 = .ofNat (here + 3) from h.ip_add 3]
  cases x.value E.machine with
  | error e => rfl
  | ok v =>
    cases y.value E.machine with
    | error e => rfl
    | ok w =>
      change (if (v == 0) == onZero then _ else _) =
        m.meet host s (Action.demanded (here + 3) m (if (v == 0) == onZero then _ else _))
      split
      · cases Memory.address w <;> rfl
      · rfl

theorem step_read (h : E.Ready here .read [z] m) :
    m.step host s = m.meet host s (Action.demanded (here + 2) m (.ok (.input (z.target E.machine here)))) := by
  rw [h.step_eq rfl, ← h.target_eq (i := 0) rfl]
  rfl

theorem step_write (h : E.Ready here .write [x] m) (hx : ∀ a ∈ x.words E.machine, ¬ E.patched a) :
    m.step host s = m.meet host s (Action.demanded (here + 2) m ((x.value E.machine).map .output)) := by
  rw [h.step_eq rfl, execute, writeStep, h.load_eq (i := 0) rfl hx]
  cases x.value E.machine <;> rfl

theorem step_adjustBase (h : E.Ready here .adjustBase [x] m) (hx : ∀ a ∈ x.words E.machine, ¬ E.patched a) :
    m.step host s = m.meet host s (Action.demanded (here + 2) m ((x.value E.machine).map .shift)) := by
  rw [h.step_eq rfl, execute, adjustStep, h.load_eq (i := 0) rfl hx,
    show m.ip + 2 = .ofNat (here + 2) from h.ip_add 2]
  cases x.value E.machine <;> rfl

end Ready

/-- When the operands are prepared, the machine is in front of the instruction. -/
theorem instruction_ready {op : Opcode} {ls : List Lowered} {rs : List (Except Fault Meaning)}
    (h : List.Forall₂ (Prepares host s E) ls rs) {a : Nat} {m : Machine}
    (hcode : E.CodeAt a (Lowered.instruction op ls)) (hm : E.Agrees m) (hip : m.ip = .ofNat a)
    {here : Nat} (hhere : here + (1 + ls.length) = a + Item.size (Lowered.instruction op ls)) :
    Runs host s m (rs.mapM id) (fun xs m' => E.Ready here op xs m' ∧
      Kept (Span a (Item.size (Lowered.instruction op ls))) m m') E.Agrees := by
  rw [Lowered.size_instruction] at hhere ⊢
  obtain rfl : here = a + Item.size (ls.flatMap (·.setup)) := by omega
  rw [Lowered.instruction, codeAt_append, Item.word, codeAt_cell] at hcode
  obtain ⟨hsetup, hword, hcells⟩ := hcode
  refine (Prepares.all h hsetup hcells (by omega) hm hip).mono ?_ fun _ hm' => hm'
  rintro xs m' ⟨hmodes, hraws, hip', hm', hkept⟩
  refine ⟨⟨hm', hip', hword.lt, ?_, fun i x hi => ?_⟩, ?_⟩
  · rw [hmodes, hm'.word_eq hword rfl]
    rfl
  · have hlength : xs.length = ls.length := by simpa using congrArg List.length hmodes
    have hsize : i < Item.size (ls.map fun o => .cell o.cell) := by
      rw [Item.size_map_cell fun o : Lowered => o.cell, ← hlength]
      exact (List.getElem?_eq_some_iff.1 hi).1
    rw [operand_eq_get hip' (hcells.lt hsize)]
    exact hraws i x hi
  · refine fun y hy => hkept y fun hs => hy ?_
    rcases hs with hs | hs <;> unfold Span at hs ⊢ <;> omega

/-- The machine gets in front of an instruction without the host and does there what the action says, or runs into the
fault before. -/
def Performs (host : Host σ) (s : σ) (E : Entry) (range : Nat → Prop) (here finish : Nat) (m : Machine)
    (r : Except Fault Action) : Prop :=
  ∃ m', Reaches host (m, s) (m', s) ∧ E.Agrees m' ∧
    m'.step host s = m'.meet host s (Action.demanded finish m' r) ∧
    ((∃ action, r = .ok action) → m'.ip.toNat = here ∧ Kept range m m')

/-- The operation decides what becomes of operands that hold what was meant. -/
theorem performs_of_step {op : Opcode} {ls : List Lowered} {rs : List (Except Fault Meaning)}
    (h : List.Forall₂ (Prepares host s E) ls rs) {a here finish : Nat} {m : Machine}
    (hcode : E.CodeAt a (Lowered.instruction op ls)) (hm : E.Agrees m) (hip : m.ip = .ofNat a)
    (hfinish : finish = a + Item.size (Lowered.instruction op ls)) (hhere : here + (1 + rs.length) = finish)
    {action : Except Fault Action} (hfault : ∀ e, rs.mapM id = .error e → action = .error e)
    (hstep : ∀ xs m', rs.mapM id = .ok xs → E.Ready here op xs m' →
      m'.step host s = m'.meet host s (Action.demanded finish m' action)) :
    Performs host s E (Span a (Item.size (Lowered.instruction op ls))) here finish m action := by
  have hend : here + (1 + ls.length) = a + Item.size (Lowered.instruction op ls) := by
    rw [h.length_eq, hhere, hfinish]
  obtain ⟨m', hreach, hm'⟩ := instruction_ready h hcode hm hip hend
  cases hrs : rs.mapM id with
  | error e =>
    -- some operand cannot be made out, so the machine does not come as far as the instruction
    rw [hrs] at hm'
    rw [hfault e hrs]
    exact ⟨m', hreach, hm'.1, hm'.2, fun ⟨_, h⟩ => nomatch h⟩
  | ok xs =>
    rw [hrs] at hm'
    obtain ⟨hready, hkept⟩ := hm'
    exact ⟨m', hreach, hready.agrees, hstep xs m' hrs hready, fun _ => ⟨toNat_ip hready.ip hready.lt, hkept⟩⟩

/-- No word that the value is read from is written by the code. -/
def Clear (E : Entry) (r : Except Fault Meaning) : Prop :=
  ∀ x, r = .ok x → ∀ a ∈ x.words E.machine, ¬ E.patched a

theorem clear_immediate (E : Entry) (raw : Int) : E.Clear (.ok ⟨.immediate, raw⟩) := by
  intro x hx a ha
  cases hx
  cases ha

section

variable {a here : Nat} {m : Machine} {op : Opcode} {ls : List Lowered} {r₀ r₁ r₂ : Except Fault Meaning}

/-- A function of two values is stored through the third operand. -/
theorem performs_combined {f : Int → Int → Int} (hf : op.binary? = some f)
    (h : List.Forall₂ (Prepares host s E) ls [r₀, r₁, r₂]) (hclear₀ : E.Clear r₀) (hclear₁ : E.Clear r₁)
    (hcode : E.CodeAt a (Lowered.instruction op ls)) (hm : E.Agrees m) (hip : m.ip = .ofNat a)
    (hhere : here + 4 = a + Item.size (Lowered.instruction op ls)) :
    Performs host s E (Span a (Item.size (Lowered.instruction op ls))) here (here + 4) m
      (do Action.combined E.machine here f (← r₀) (← r₁) (← r₂)) := by
  refine performs_of_step h hcode hm hip hhere rfl (fun e he => ?_) fun xs m' hxs hready => ?_
  · cases r₀ <;> cases r₁ <;> cases r₂ <;> cases he <;> rfl
  · obtain ⟨x, y, z, rfl, rfl, rfl, rfl⟩ : ∃ x y z, xs = [x, y, z] ∧ r₀ = .ok x ∧ r₁ = .ok y ∧ r₂ = .ok z := by
      cases r₀ <;> cases r₁ <;> cases r₂ <;> cases hxs
      exact ⟨_, _, _, rfl, rfl, rfl, rfl⟩
    exact hready.step_combined hf (hclear₀ x rfl) (hclear₁ y rfl)

/-- The way goes on elsewhere or behind the instruction. -/
theorem performs_branched {onZero : Bool} (h : List.Forall₂ (Prepares host s E) ls [r₀, r₁]) (hclear₀ : E.Clear r₀)
    (hclear₁ : E.Clear r₁) (hcode : E.CodeAt a (Lowered.instruction (jumpOn onZero) ls)) (hm : E.Agrees m)
    (hip : m.ip = .ofNat a) (hhere : here + 3 = a + Item.size (Lowered.instruction (jumpOn onZero) ls)) :
    Performs host s E (Span a (Item.size (Lowered.instruction (jumpOn onZero) ls))) here (here + 3) m
      (do Action.branched E.machine onZero (← r₀) (← r₁)) := by
  refine performs_of_step h hcode hm hip hhere rfl (fun e he => ?_) fun xs m' hxs hready => ?_
  · cases r₀ <;> cases r₁ <;> cases he <;> rfl
  · obtain ⟨x, y, rfl, rfl, rfl⟩ : ∃ x y, xs = [x, y] ∧ r₀ = .ok x ∧ r₁ = .ok y := by
      cases r₀ <;> cases r₁ <;> cases hxs
      exact ⟨_, _, rfl, rfl, rfl⟩
    exact hready.step_branched (hclear₀ x rfl) (hclear₁ y rfl)

/-- An instruction with one operand. -/
theorem performs_single (h : List.Forall₂ (Prepares host s E) ls [r₀]) {f : Meaning → Except Fault Action}
    (hstep : ∀ x m', r₀ = .ok x → E.Ready here op [x] m' →
      m'.step host s = m'.meet host s (Action.demanded (here + 2) m' (f x)))
    (hcode : E.CodeAt a (Lowered.instruction op ls)) (hm : E.Agrees m) (hip : m.ip = .ofNat a)
    (hhere : here + 2 = a + Item.size (Lowered.instruction op ls)) :
    Performs host s E (Span a (Item.size (Lowered.instruction op ls))) here (here + 2) m (r₀ >>= f) := by
  refine performs_of_step h hcode hm hip hhere rfl (fun e he => ?_) fun xs m' hxs hready => ?_
  · cases r₀ <;> cases he
    rfl
  · obtain ⟨x, rfl, rfl⟩ : ∃ x, xs = [x] ∧ r₀ = .ok x := by
      cases r₀ <;> cases hxs
      exact ⟨_, rfl, rfl⟩
    rw [hstep x m' rfl hready, ok_bind]

/-- All forms of a copy store the value as it is. -/
theorem performs_copied {source target : Lowered} {r r' : Except Fault Meaning} {items : List Item}
    (hitems : items ∈ Emit.copyForms source target) (hsource : Prepares host s E source r)
    (htarget : Prepares host s E target r') (hclear : E.Clear r) (hcode : E.CodeAt a items) (hm : E.Agrees m)
    (hip : m.ip = .ofNat a) (hhere : here + 4 = a + Item.size items) :
    Performs host s E (Span a (Item.size items)) here (here + 4) m
      (do Action.copied E.machine here (← r) (← r')) := by
  have hright : ∀ {f : Int → Int → Int} {k : Int}, (∀ v, f v k = v) →
      (do Action.copied E.machine here (← r) (← r')) =
        (do Action.combined E.machine here f (← r) (← Except.ok ⟨.immediate, k⟩) (← r')) := by
    intro f k hf
    cases r <;> cases r' <;> first | rfl | exact (Action.combined_right hf _ _).symm
  have hleft : ∀ {f : Int → Int → Int} {k : Int}, (∀ v, f k v = v) →
      (do Action.copied E.machine here (← r) (← r')) =
        (do Action.combined E.machine here f (← Except.ok ⟨.immediate, k⟩) (← r) (← r')) := by
    intro f k hf
    cases r <;> cases r' <;> first | rfl | exact (Action.combined_left hf _ _).symm
  have hnumber : ∀ k : Int, Prepares host s E (.fixed .immediate (.plain (.num k))) (.ok ⟨.immediate, k⟩) :=
    fun k => .plain .immediate (.num k)
  simp only [Emit.copyForms, List.mem_cons, List.not_mem_nil, or_false] at hitems
  rcases hitems with rfl | rfl | rfl | rfl
  · rw [hright Int.add_zero]
    exact performs_combined rfl (.cons hsource (.cons (hnumber 0) (.cons htarget .nil))) hclear (E.clear_immediate 0)
      hcode hm hip hhere
  · rw [hleft Int.zero_add]
    exact performs_combined rfl (.cons (hnumber 0) (.cons hsource (.cons htarget .nil))) (E.clear_immediate 0) hclear
      hcode hm hip hhere
  · rw [hright Int.mul_one]
    exact performs_combined rfl (.cons hsource (.cons (hnumber 1) (.cons htarget .nil))) hclear (E.clear_immediate 1)
      hcode hm hip hhere
  · rw [hleft Int.one_mul]
    exact performs_combined rfl (.cons (hnumber 1) (.cons hsource (.cons htarget .nil))) (E.clear_immediate 1) hclear
      hcode hm hip hhere

end

end Entry

end Lamcode
