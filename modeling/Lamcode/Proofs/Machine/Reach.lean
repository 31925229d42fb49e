import Mathlib.Logic.Relation
import Lamcode.Machine.Run

/-!
# Lamcode.Proofs.Machine.Reach — instructions one at a time, and runs of them

A machine step is described by what it finds: the instruction word, what each operand word stands for
in its mode (`Loads` for a value, `Targets` for an address to store to), and nothing about how the word got there. There
is one lemma per kind of instruction; the four operations with two values and a result share one.

`Reaches` is any number of steps that go on. A machine that reaches a halt instruction halts under every
bound that is large enough.
-/

namespace Lamcode

/-! ## Decoding what was encoded -/

namespace Instruction

theorem modeDigits_nonneg (modes : List Mode) : 0 ≤ modeDigits modes := by
  induction modes with
  | nil => exact Int.le_refl _
  | cons m ms ih =>
    have : 0 ≤ m.digit := by cases m <;> decide
    simp only [modeDigits]
    omega

theorem decodeModes_modeDigits (modes : List Mode) :
    decodeModes modes.length (modeDigits modes) = .ok modes := by
  induction modes with
  | nil => rfl
  | cons m ms ih =>
    have hms := modeDigits_nonneg ms
    have hdigits := modeDigits_nonneg (m :: ms)
    have hlow : (modeDigits (m :: ms)).tmod 10 = m.digit := by
      rw [Int.tmod_eq_emod_of_nonneg hdigits]
      cases m <;> simp only [modeDigits, Mode.digit] <;> omega
    have hrest : (modeDigits (m :: ms)).tdiv 10 = modeDigits ms := by
      rw [Int.tdiv_eq_ediv_of_nonneg hdigits]
      cases m <;> simp only [modeDigits, Mode.digit] <;> omega
    simp only [List.length_cons, decodeModes, hlow, hrest, Mode.ofDigit?_digit, ih]

theorem decode_encode {op : Opcode} {modes : List Mode} (h : modes.length = op.arity)
    (address : Nat) : decode (encode op modes) address = .ok ⟨op, modes⟩ := by
  have hmodes := modeDigits_nonneg modes
  have hcode : 0 ≤ op.code ∧ op.code < 100 := by cases op <;> decide
  have hnonneg : 0 ≤ encode op modes := by
    unfold encode
    omega
  have hlow : (encode op modes).tmod 100 = op.code := by
    rw [Int.tmod_eq_emod_of_nonneg hnonneg]
    unfold encode
    omega
  have hrest : (encode op modes).tdiv 100 = modeDigits modes := by
    rw [Int.tdiv_eq_ediv_of_nonneg hnonneg]
    unfold encode
    omega
  simp only [decode, hlow, hrest, Opcode.ofCode?_code, ← h, decodeModes_modeDigits]

end Instruction

theorem Memory.address_natCast {a : Nat} (h : a < addressLimit) : address (a : Int) = .ok a := by
  have : ¬ (a : Int) < 0 := by omega
  simp [address, this, h]

/-- The function of the first two operands that an operation stores through the third one. -/
def Opcode.binary? : Opcode → Option (Int → Int → Int)
  | .add => some (· + ·)
  | .multiply => some (· * ·)
  | .lessThan => some fun a b => Machine.flag (a < b)
  | .equals => some fun a b => Machine.flag (a == b)
  | _ => none

namespace Machine

variable {σ : Type} {host : Host σ} {m : Machine} {s : σ}

/-! ## What an operand word stands for -/

theorem toNat_ip {a : Nat} (hip : m.ip = .ofNat a) (hlt : a < Memory.addressLimit) : m.ip.toNat = a := by
  rw [hip, UInt64.toNat_ofNat_of_lt' hlt]

/-- Where the addresses do not run out, the operand words stand right behind the instruction word. -/
theorem operand_eq_get {a index : Nat} (hip : m.ip = .ofNat a)
    (hlt : a + 1 + index < Memory.addressLimit) : m.operand index = m.memory.get (a + 1 + index) := by
  have hadd : m.ip + 1 + .ofNat index = .ofNat (a + 1 + index) := by
    rw [hip, UInt64.ofNat_add, UInt64.ofNat_add]
    rfl
  rw [operand, hadd, UInt64.toNat_ofNat_of_lt' hlt]

/-- The word `raw`, taken in the mode `mode`, has the value `v`. -/
def Loads (m : Machine) (mode : Mode) (raw v : Int) : Prop :=
  match mode with
  | .position => ∃ a : Nat, raw = a ∧ a < Memory.addressLimit ∧ m.memory.get a = v
  | .immediate => raw = v
  | .relative => ∃ a : Nat, m.base + raw = a ∧ a < Memory.addressLimit ∧ m.memory.get a = v

/-- What is stored through the word `raw` in the mode `mode` is stored at the address `a`. -/
def Targets (m : Machine) (mode : Mode) (raw : Int) (a : Nat) : Prop :=
  match mode with
  | .position => raw = a ∧ a < Memory.addressLimit
  | .immediate => False
  | .relative => m.base + raw = a ∧ a < Memory.addressLimit

theorem load_of_loads {op : Opcode} {modes : List Mode} {mode : Mode} {v : Int} (index : Nat)
    (hmode : modes[index]? = some mode) (h : m.Loads mode (m.operand index) v) :
    m.load ⟨op, modes⟩ index = .ok v := by
  unfold load
  rw [show Instruction.mode ⟨op, modes⟩ index = mode by
    simp [Instruction.mode, List.getD_eq_getElem?_getD, hmode]]
  cases mode with
  | position =>
    obtain ⟨a, hraw, ha, hv⟩ := h
    simp only [hraw, Memory.address_natCast ha, Except.map, hv]
  | immediate => exact congrArg Except.ok h
  | relative =>
    obtain ⟨a, hraw, ha, hv⟩ := h
    simp only [hraw, Memory.address_natCast ha, Except.map, hv]

theorem target_of_targets {op : Opcode} {modes : List Mode} {mode : Mode} {a : Nat} (index : Nat)
    (hmode : modes[index]? = some mode) (h : m.Targets mode (m.operand index) a) :
    m.target ⟨op, modes⟩ index = .ok a := by
  unfold target
  rw [show Instruction.mode ⟨op, modes⟩ index = mode by
    simp [Instruction.mode, List.getD_eq_getElem?_getD, hmode]]
  cases mode with
  | position => simp only [h.1, Memory.address_natCast h.2]
  | immediate => exact h.elim
  | relative => simp only [h.1, Memory.address_natCast h.2]

/-! ## One lemma per kind of instruction -/

/-- A step executes the instruction that the word at `ip` encodes. -/
theorem step_eq_execute {op : Opcode} {modes : List Mode} (hlength : modes.length = op.arity)
    (hword : m.memory.get m.ip.toNat = Instruction.encode op modes) :
    m.step host s = m.execute host ⟨op, modes⟩ s := by
  unfold step
  rw [hword, Instruction.decode_encode hlength]

theorem step_binary {op : Opcode} {f : Int → Int → Int} {m₀ m₁ m₂ : Mode} {v₀ v₁ : Int} {a : Nat}
    (hf : op.binary? = some f) (hword : m.memory.get m.ip.toNat = Instruction.encode op [m₀, m₁, m₂])
    (h₀ : m.Loads m₀ (m.operand 0) v₀) (h₁ : m.Loads m₁ (m.operand 1) v₁)
    (h₂ : m.Targets m₂ (m.operand 2) a) :
    m.step host s =
      (.ok .proceed, { m with memory := m.memory.set a (f v₀ v₁), ip := m.ip + 4 }, s) := by
  have harity : op.arity = 3 := by cases op <;> first | rfl | cases hf
  rw [step_eq_execute (by rw [harity]; rfl) hword]
  have hoperands : m.binaryOperands ⟨op, [m₀, m₁, m₂]⟩ = .ok (v₀, v₁, a) := by
    unfold binaryOperands
    rw [load_of_loads 0 rfl h₀, load_of_loads 1 rfl h₁, target_of_targets 2 rfl h₂]
    rfl
  cases op <;> cases hf <;> simp only [execute, binary, hoperands]

theorem step_adjustBase {m₀ : Mode} {v : Int}
    (hword : m.memory.get m.ip.toNat = Instruction.encode .adjustBase [m₀])
    (h₀ : m.Loads m₀ (m.operand 0) v) :
    m.step host s = (.ok .proceed, { m with base := m.base + v, ip := m.ip + 2 }, s) := by
  have hload : m.load ⟨.adjustBase, [m₀]⟩ 0 = .ok v := load_of_loads 0 rfl h₀
  rw [step_eq_execute rfl hword]
  simp only [execute, adjustStep, hload]

/-- The operation that jumps on zero, or on anything but zero. -/
def jumpOn (onZero : Bool) : Opcode :=
  if onZero then .jumpIfFalse else .jumpIfTrue

theorem step_jumpOn {onZero : Bool} {m₀ m₁ : Mode}
    (hword : m.memory.get m.ip.toNat = Instruction.encode (jumpOn onZero) [m₀, m₁]) :
    m.step host s = m.jumpStep ⟨jumpOn onZero, [m₀, m₁]⟩ onZero s := by
  have harity : (jumpOn onZero).arity = 2 := by cases onZero <;> rfl
  rw [step_eq_execute (by rw [harity]; rfl) hword]
  cases onZero <;> rfl

/-- A jump whose condition holds goes to its target. -/
theorem step_jump_taken {onZero : Bool} {m₀ m₁ : Mode} {cond : Int} {a : Nat}
    (hword : m.memory.get m.ip.toNat = Instruction.encode (jumpOn onZero) [m₀, m₁])
    (h₀ : m.Loads m₀ (m.operand 0) cond) (h₁ : m.Loads m₁ (m.operand 1) a)
    (ha : a < Memory.addressLimit) (hcond : (cond == 0) = onZero) :
    m.step host s = (.ok .proceed, { m with ip := .ofNat a }, s) := by
  have hload₀ : m.load ⟨jumpOn onZero, [m₀, m₁]⟩ 0 = .ok cond := load_of_loads 0 rfl h₀
  have hload₁ : m.load ⟨jumpOn onZero, [m₀, m₁]⟩ 1 = .ok (a : Int) := load_of_loads 1 rfl h₁
  rw [step_jumpOn hword]
  simp only [jumpStep, hload₀, hload₁, hcond, beq_self_eq_true, if_true, Memory.address_natCast ha]

/-- A jump whose condition does not hold is passed, wherever it leads. -/
theorem step_jump_passed {onZero : Bool} {m₀ m₁ : Mode} {cond target : Int}
    (hword : m.memory.get m.ip.toNat = Instruction.encode (jumpOn onZero) [m₀, m₁])
    (h₀ : m.Loads m₀ (m.operand 0) cond) (h₁ : m.Loads m₁ (m.operand 1) target)
    (hcond : (cond == 0) = !onZero) :
    m.step host s = (.ok .proceed, { m with ip := m.ip + 3 }, s) := by
  have hload₀ : m.load ⟨jumpOn onZero, [m₀, m₁]⟩ 0 = .ok cond := load_of_loads 0 rfl h₀
  have hload₁ : m.load ⟨jumpOn onZero, [m₀, m₁]⟩ 1 = .ok target := load_of_loads 1 rfl h₁
  have hpassed : ((cond == 0) == onZero) = false := by rw [hcond, Bool.not_beq_self]
  rw [step_jumpOn hword]
  simp only [jumpStep, hload₀, hload₁, hpassed, Bool.false_eq_true, if_false]

theorem step_write {m₀ : Mode} {v : Int} {s' : σ}
    (hword : m.memory.get m.ip.toNat = Instruction.encode .write [m₀])
    (h₀ : m.Loads m₀ (m.operand 0) v) (hhost : host.write v s = (.ok .proceed, s')) :
    m.step host s = (.ok .proceed, { m with ip := m.ip + 2 }, s') := by
  have hload : m.load ⟨.write, [m₀]⟩ 0 = .ok v := load_of_loads 0 rfl h₀
  rw [step_eq_execute rfl hword]
  simp only [execute, writeStep, hload, hhost, Flow.toStep]

theorem step_read {m₀ : Mode} {v : Int} {a : Nat} {s' : σ}
    (hword : m.memory.get m.ip.toNat = Instruction.encode .read [m₀])
    (h₀ : m.Targets m₀ (m.operand 0) a) (hhost : host.read s = (.ok (v, .proceed), s')) :
    m.step host s = (.ok .proceed, { m with memory := m.memory.set a v, ip := m.ip + 2 }, s') := by
  have htarget : m.target ⟨.read, [m₀]⟩ 0 = .ok a := target_of_targets 0 rfl h₀
  rw [step_eq_execute rfl hword]
  simp only [execute, readStep, htarget, hhost, Flow.toStep]

theorem step_halt (hword : m.memory.get m.ip.toNat = Opcode.halt.code) :
    m.step host s = (.ok .halt, m, s) := by
  have hword : m.memory.get m.ip.toNat = Instruction.encode .halt [] := hword
  rw [step_eq_execute rfl hword]
  rfl

/-! ## Runs -/

/-- The step leads from one machine with its host state to another and goes on. -/
def Proceeds (host : Host σ) (x y : Machine × σ) : Prop :=
  x.1.step host x.2 = (.ok .proceed, y.1, y.2)

/-- Any number of steps that go on. -/
def Reaches (host : Host σ) : Machine × σ → Machine × σ → Prop :=
  Relation.ReflTransGen (Proceeds host)

theorem Reaches.refl (x : Machine × σ) : Reaches host x x :=
  Relation.ReflTransGen.refl

theorem Reaches.trans {x y z : Machine × σ} (h : Reaches host x y) (k : Reaches host y z) :
    Reaches host x z :=
  Relation.ReflTransGen.trans h k

theorem Reaches.of_step {m m' : Machine} {s s' : σ} (h : m.step host s = (.ok .proceed, m', s')) :
    Reaches host (m, s) (m', s') :=
  Relation.ReflTransGen.single h

/-- A loop goes through all steps that go on before it can stop. -/
theorem Reaches.loop_eq {x y : Machine × σ} (h : Reaches host x y) :
    ∃ n, ∀ fuel, loop host (n + fuel) x.1 x.2 = loop host fuel y.1 y.2 := by
  induction h using Relation.ReflTransGen.head_induction_on with
  | refl => exact ⟨0, fun fuel => by rw [Nat.zero_add]⟩
  | head hstep _ ih =>
    obtain ⟨n, hn⟩ := ih
    refine ⟨n + 1, fun fuel => ?_⟩
    have hstep : Machine.step _ _ _ = _ := hstep
    rw [show n + 1 + fuel = (n + fuel) + 1 by omega, loop, hstep]
    exact hn fuel

/-- An idle machine that reaches a halt instruction is run to its halt, under every bound that is large
enough. -/
theorem Reaches.runToHalt_eq {m' : Machine} {s' : σ} (hidle : m.status = .idle)
    (h : Reaches host ({ m with status := .running }, s) (m', s'))
    (hword : m'.memory.get m'.ip.toNat = Opcode.halt.code) :
    ∃ n, ∀ fuel, n ≤ fuel →
      runToHalt host fuel m s = some (.ok (), { m' with status := .halted }, s') := by
  obtain ⟨n, hn⟩ := h.loop_eq
  refine ⟨n + 1, fun fuel hfuel => ?_⟩
  obtain ⟨k, rfl⟩ : ∃ k, fuel = n + k + 1 := ⟨fuel - n - 1, by omega⟩
  have hloop := hn (k + 1)
  rw [loop, step_halt hword] at hloop
  rw [runToHalt, run, hidle]
  simp only [show n + k + 1 = n + (k + 1) by omega, hloop]

end Machine

end Lamcode
