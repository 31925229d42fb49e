import Lamcode.Builtin.Code
import Lamcode.Proofs.Code.Instruction

/-!
# Lamcode.Proofs.Code.Division — division by repeated subtraction

The code of a division keeps four numbers in the slots 2 to 5 of its frame. `Data.dividing` is the data with such
numbers in these slots and all else as it was, so that an instruction of the loop leads from one of them to another,
and what a run of the loop does follows by induction on what is left of the dividend (`LoopStands.runs`).
-/

namespace Lamcode

open Layout Emit Operand
open Builtin (slotOf)

/-- The numbers that a division works with. -/
structure Division where
  /-- What is left of the dividend. -/
  remainder : Int
  /-- The divisor with the other sign. -/
  negated : Int
  /-- How often the divisor was subtracted. -/
  quotient : Int
  divisor : Int

namespace Data

variable (d : Data) (w : Division)

/-- The data with the numbers of a division in the slots from 2 on. -/
def dividing : Data :=
  { d with mem := Function.update (Function.update (Function.update (Function.update d.mem
      (d.base + 2) w.remainder) (d.base + 3) w.negated) (d.base + 4) w.quotient) (d.base + 5) w.divisor }

@[simp] theorem base_dividing : (d.dividing w).base = d.base := rfl

@[simp] theorem queue_dividing : (d.dividing w).queue = d.queue := rfl

theorem mem_dividing_remainder : (d.dividing w).mem (d.base + 2) = w.remainder := by
  simp [dividing]

theorem mem_dividing_negated : (d.dividing w).mem (d.base + 3) = w.negated := by
  simp [dividing]

theorem mem_dividing_quotient : (d.dividing w).mem (d.base + 4) = w.quotient := by
  simp [dividing]

theorem mem_dividing_divisor : (d.dividing w).mem (d.base + 5) = w.divisor := by
  simp [dividing]

variable {d} in
/-- The other words are as they were. -/
theorem mem_dividing {x : Int} (h : x < d.base + 2 ∨ d.base + 6 ≤ x) : (d.dividing w).mem x = d.mem x := by
  have h₂ : x ≠ d.base + 2 := by omega
  have h₃ : x ≠ d.base + 3 := by omega
  have h₄ : x ≠ d.base + 4 := by omega
  have h₅ : x ≠ d.base + 5 := by omega
  simp [dividing, h₂, h₃, h₄, h₅]

/-! ### Storing one of the numbers -/

theorem update_remainder (v : Int) :
    Function.update (d.dividing w).mem (d.base + 2) v = (d.dividing { w with remainder := v }).mem := by
  funext x
  simp only [dividing, Function.update_apply]
  grind

theorem update_negated (v : Int) :
    Function.update (d.dividing w).mem (d.base + 3) v = (d.dividing { w with negated := v }).mem := by
  funext x
  simp only [dividing, Function.update_apply]
  grind

theorem update_quotient (v : Int) :
    Function.update (d.dividing w).mem (d.base + 4) v = (d.dividing { w with quotient := v }).mem := by
  funext x
  simp only [dividing, Function.update_apply]
  grind

theorem update_divisor (v : Int) :
    Function.update (d.dividing w).mem (d.base + 5) v = (d.dividing { w with divisor := v }).mem := by
  funext x
  simp only [dividing, Function.update_apply]
  grind

/-- Before the division starts there are some numbers in its slots. -/
theorem exists_dividing_eq : ∃ w, d.dividing w = d := by
  refine ⟨⟨d.mem (d.base + 2), d.mem (d.base + 3), d.mem (d.base + 4), d.mem (d.base + 5)⟩, ?_⟩
  simp [dividing]

end Data

variable {L : Layout} {t : ScopeTable} {site : Site} {d : Data} {w : Division}

/-- The first six slots of a frame are data words. -/
structure Layout.Roomy (L : Layout) (base : Int) : Prop where
  free : ∀ {k : Int}, 0 ≤ k → k < 6 → L.Free (base + k)
  frozen : ∀ {k : Int}, 0 ≤ k → k < 6 → L.frozen (base + k) = none

namespace Layout

theorem Roomy.names (h : L.Roomy d.base) {k : Int} (hk : 0 ≤ k) (hlt : k < 6) (scope : Nat) :
    Names L t scope d (.rel k) (d.base + k) :=
  names_rel rfl (h.free hk hlt)

theorem Loaded.dividing (hmem : L.Loaded d.mem) (h : L.Roomy d.base) (w : Division) :
    L.Loaded (d.dividing w).mem :=
  (((hmem.update (h.frozen (by decide) (by decide)) _).update (h.frozen (by decide) (by decide)) _).update
    (h.frozen (by decide) (by decide)) _).update (h.frozen (by decide) (by decide)) _

end Layout

/-! ## The loop -/

/-- The loop of a division stands at `head`, its round at `round`, and it is left for `exit`. -/
structure LoopStands (L : Layout) (t : ScopeTable) (site : Site) (head round exit : Nat) : Prop where
  test : ∃ (flag done : Label) (a : Nat), L.addresses[done.index]? = some exit ∧ exit < Memory.addressLimit ∧
    Stands L t site (lessThan (rel 2) (rel 5) (.wordAt flag)) head a ∧
    Stands L t site (jumpIfTrue (.patched .immediate flag) (.addressOf done)) a round
  subtract : ∃ (start : Label) (a : Nat), L.addresses[start.index]? = some head ∧ head < Memory.addressLimit ∧
    Stands L t site (concat [Emit.add (rel 2) (rel 3) (rel 2), addTo (.int 1) (rel 4),
      jump (.addressOf start)]) round a

namespace LoopStands

variable {m n k : Int} {head round exit : Nat}

/-- The loop is left once the divisor does not fit any more. -/
theorem test_runs (hloop : LoopStands L t site head round exit) (hmem : L.Loaded d.mem) (hroomy : L.Roomy d.base) :
    L.Runs ((d.dividing w).config head)
      ((d.dividing w).config (if w.remainder < w.divisor then exit else round)) := by
  obtain ⟨flag, done, a, hdone, hlt, htest, hbranch⟩ := hloop.test
  have hroomy' : L.Roomy (d.dividing w).base := hroomy
  have hremainder := (hroomy'.names (t := t) (k := 2) (by decide) (by decide) site.scope).yields
  have hdivisor := (hroomy'.names (t := t) (k := 5) (by decide) (by decide) site.scope).yields
  have hruns := Stands.branch (hmem.dividing hroomy w) rfl hremainder hdivisor hdone hlt false htest hbranch
  simp only [Data.base_dividing, Data.mem_dividing_remainder, Data.mem_dividing_divisor] at hruns
  by_cases hfits : w.remainder < w.divisor
  · simpa [Machine.flag, hfits] using hruns
  · simpa [Machine.flag, hfits] using hruns

/-- Each round adds the negated divisor once and counts. -/
theorem round_runs (hloop : LoopStands L t site head round exit) (hmem : L.Loaded d.mem)
    (hroomy : L.Roomy d.base) :
    L.Runs ((d.dividing w).config round)
      ((d.dividing { w with remainder := w.remainder + w.negated, quotient := w.quotient + 1 }).config head) := by
  obtain ⟨start, a, hstart, hlt, hcode⟩ := hloop.subtract
  let w₁ : Division := { w with remainder := w.remainder + w.negated }
  have hnames : ∀ {u : Division} {k : Int}, 0 ≤ k → k < 6 →
      Names L t site.scope (d.dividing u) (.rel k) (d.base + k) :=
    fun hk hlt => hroomy.names (d := d.dividing _) hk hlt _
  have hadd : Falls L t site (Emit.add (rel 2) (rel 3) (rel 2)) (d.dividing w) (d.dividing w₁) := by
    have hfalls : Falls L t site (Emit.add (rel 2) (rel 3) (rel 2)) (d.dividing w) _ :=
      falls_binary (hmem.dividing hroomy w) rfl (hnames (by decide) (by decide)).yields
        (hnames (by decide) (by decide)).yields (hnames (by decide) (by decide))
    rw [d.update_remainder, d.mem_dividing_remainder, d.mem_dividing_negated] at hfalls
    exact hfalls
  have hcount : Falls L t site (addTo (.int 1) (rel 4)) (d.dividing w₁)
      (d.dividing { w₁ with quotient := w.quotient + 1 }) := by
    have hfalls : Falls L t site (addTo (.int 1) (rel 4)) (d.dividing w₁) _ :=
      falls_addTo (hmem.dividing hroomy w₁) (yields_int 1) (hnames (by decide) (by decide))
    rw [d.update_quotient, d.mem_dividing_quotient] at hfalls
    exact hfalls
  have hback : Exits L t site (jump (.addressOf start)) (d.dividing { w₁ with quotient := w.quotient + 1 }) _ :=
    exits_jump (hmem.dividing hroomy _) (yields_addressOf hstart) hlt
  exact (Exits.cons hadd (.cons hcount (.last (.jump _) hback))).runs hcode

/-- The loop divides: what is left is the remainder, and the divisor was subtracted as often as the quotient says. -/
theorem runs (hloop : LoopStands L t site head round exit) (hmem : L.Loaded d.mem) (hroomy : L.Roomy d.base)
    (hm : 0 ≤ m) (hn : 0 < n) :
    L.Runs ((d.dividing ⟨m, n * -1, k, n⟩).config head)
      ((d.dividing ⟨m % n, n * -1, k + m / n, n⟩).config exit) := by
  -- what is left gets smaller in every round
  induction hfuel : m.toNat using Nat.strongRecOn generalizing m k with
  | ind fuel ih =>
    have htest := hloop.test_runs (w := ⟨m, n * -1, k, n⟩) hmem hroomy
    by_cases hlt : m < n
    · rw [if_pos hlt] at htest
      rw [Int.emod_eq_of_lt hm hlt, Int.ediv_eq_zero_of_lt hm hlt, Int.add_zero]
      exact htest
    · rw [if_neg hlt] at htest
      have hround := hloop.round_runs (w := ⟨m, n * -1, k, n⟩) hmem hroomy
      have hrest : L.Runs ((d.dividing ⟨m - n, n * -1, k + 1, n⟩).config head) _ :=
        ih (m - n).toNat (by omega) (by omega) rfl
      have hmod : (m - n) % n = m % n := Int.sub_emod_right m n
      have hdiv : k + 1 + (m - n) / n = k + m / n := by
        have := Int.add_mul_ediv_right (m - n) 1 (Int.ne_of_gt hn)
        rw [Int.one_mul, Int.sub_add_cancel] at this
        omega
      rw [hmod, hdiv] at hrest
      have hleft : m + n * -1 = m - n := by omega
      simp only [hleft] at hround
      exact (htest.trans hround).trans hrest

end LoopStands

/-! ## All of it -/

/-- The numbers at the end of a division. -/
def Division.done (m n : Int) : Division :=
  ⟨m % n, n * -1, m / n, n⟩

/-- The code in front of the loop puts the numbers into the slots. -/
theorem setup_falls {scope : Nat} {m n : Int} (hmem : L.Loaded d.mem) (hroomy : L.Roomy d.base)
    (ha : ∀ w, Yields L t scope (d.dividing w) (slotOf "a") m)
    (hb : ∀ w, Yields L t scope (d.dividing w) (slotOf "b") n) :
    Falls L t ⟨scope, .generated⟩ (concat [copy (slotOf "a") (rel 2), Emit.mult (slotOf "b") (.int (-1)) (rel 3),
      copy (.int 0) (rel 4), copy (slotOf "b") (rel 5)]) d (d.dividing ⟨m, n * -1, 0, n⟩) := by
  obtain ⟨w, hw⟩ := d.exists_dividing_eq
  have hnames : ∀ {u : Division} {k : Int}, 0 ≤ k → k < 6 →
      Names L t scope (d.dividing u) (.rel k) (d.base + k) :=
    fun hk hlt => hroomy.names (d := d.dividing _) hk hlt _
  have hloaded := hmem.dividing hroomy
  have hcopy : Falls L t ⟨scope, .generated⟩ (copy (slotOf "a") (rel 2)) d
      (d.dividing { w with remainder := m }) := by
    have hfalls : Falls L t ⟨scope, .generated⟩ (copy (slotOf "a") (rel 2)) (d.dividing w) _ :=
      falls_copy (hloaded w) (ha w) (hnames (by decide) (by decide))
    rw [d.update_remainder, hw] at hfalls
    exact hfalls
  have hnegate : ∀ u : Division, Falls L t ⟨scope, .generated⟩ (Emit.mult (slotOf "b") (.int (-1)) (rel 3))
      (d.dividing u) (d.dividing { u with negated := n * -1 }) := by
    intro u
    have hfalls : Falls L t ⟨scope, .generated⟩ (Emit.mult (slotOf "b") (.int (-1)) (rel 3)) (d.dividing u) _ :=
      falls_binary (hloaded u) rfl (hb u) (yields_int (-1)) (hnames (by decide) (by decide))
    rw [d.update_negated] at hfalls
    exact hfalls
  have hclear : ∀ u : Division, Falls L t ⟨scope, .generated⟩ (copy (.int 0) (rel 4)) (d.dividing u)
      (d.dividing { u with quotient := 0 }) := by
    intro u
    have hfalls : Falls L t ⟨scope, .generated⟩ (copy (.int 0) (rel 4)) (d.dividing u) _ :=
      falls_copy (hloaded u) (yields_int 0) (hnames (by decide) (by decide))
    rw [d.update_quotient] at hfalls
    exact hfalls
  have hkeep : ∀ u : Division, Falls L t ⟨scope, .generated⟩ (copy (slotOf "b") (rel 5)) (d.dividing u)
      (d.dividing { u with divisor := n }) := by
    intro u
    have hfalls : Falls L t ⟨scope, .generated⟩ (copy (slotOf "b") (rel 5)) (d.dividing u) _ :=
      falls_copy (hloaded u) (hb u) (hnames (by decide) (by decide))
    rw [d.update_divisor] at hfalls
    exact hfalls
  exact hcopy.cons ((hnegate _).cons ((hclear _).cons ((hkeep _).cons .nil)))

/-- The code of a division leaves the slot it was made for in slot 0. -/
theorem longDivision_runs {scope a a' : Nat} {m n result : Int} (hmem : L.Loaded d.mem) (hroomy : L.Roomy d.base)
    (haddress : ∀ {l : Label} {b : Nat}, L.addresses[l.index]? = some b → b < Memory.addressLimit)
    (ha : ∀ w, Yields L t scope (d.dividing w) (slotOf "a") m)
    (hb : ∀ w, Yields L t scope (d.dividing w) (slotOf "b") n) (hm : 0 ≤ m) (hn : 0 < n)
    (hresult : 0 ≤ result ∧ result < 6)
    (hs : Stands L t ⟨scope, .generated⟩ (Builtin.longDivision result) a a') :
    L.Runs (d.config a) (Data.config ⟨d.base, Function.update (d.dividing (.done m n)).mem d.base
      ((d.dividing (.done m n)).mem (d.base + result)), d.queue⟩ a') := by
  obtain ⟨start, hs⟩ := hs.fresh
  obtain ⟨done, hs⟩ := hs.fresh
  obtain ⟨flag, hs⟩ := hs.fresh
  obtain ⟨a₁, hsetup, hs⟩ := hs.concat_append [_, _, _, _] (.concat (by simp [Emit.mult]))
  obtain ⟨_, hlabel, hs⟩ := hs.concat_cons (.placeLabel _)
  obtain ⟨a₂, htest, hs⟩ := hs.concat_cons (.instruction _ _)
  obtain ⟨a₃, hbranch, hs⟩ := hs.concat_cons (.instruction _ _)
  obtain ⟨a₄, hround, hs⟩ := hs.concat_append [_, _, _] (.concat (by simp [Emit.add]))
  obtain ⟨a₅, hlabel', hs⟩ := hs.concat_cons (.placeLabel _)
  obtain ⟨_, hcopy, hnil⟩ := hs.concat_cons (.copy _ _)
  obtain rfl := hnil.concat_nil
  obtain ⟨rfl, hstart⟩ := hlabel.placeLabel
  obtain ⟨rfl, hdone⟩ := hlabel'.placeLabel
  have hloop : LoopStands L t ⟨scope, .generated⟩ _ a₃ a₅ :=
    ⟨⟨flag, done, a₂, hdone, haddress hdone, htest, hbranch⟩, ⟨start, a₅, hstart, haddress hstart, hround⟩⟩
  have hsets := (setup_falls hmem hroomy ha hb).runs hsetup
  have hdivides := hloop.runs (k := 0) hmem hroomy hm hn
  rw [Int.zero_add] at hdivides
  have hroomy' : L.Roomy (d.dividing (.done m n)).base := hroomy
  have hzero : Names L t scope (d.dividing (.done m n)) (rel 0) d.base := by
    have := hroomy'.names (t := t) (k := 0) (by decide) (by decide) scope
    rwa [Int.add_zero] at this
  have hcopies : Falls L t ⟨scope, .generated⟩ (copy (rel result) (rel 0)) (d.dividing (.done m n)) _ :=
    falls_copy (hmem.dividing hroomy _) (hroomy'.names hresult.1 hresult.2 scope).yields hzero
  exact (hsets.trans hdivides).trans (hcopies.runs hcopy)

end Lamcode
