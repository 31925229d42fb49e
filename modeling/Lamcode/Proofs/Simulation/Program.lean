import Lamcode.Proofs.Simulation.Assignment
import Lamcode.Proofs.Simulation.Builtin
import Lamcode.Proofs.Simulation.Linked

/-!
# Lamcode.Proofs.Simulation.Program — compiled programs do what the evaluator does

The induction on the fuel that puts the parts of the evaluator together (`simulates`), the scene in which a
program is loaded, and the run of a whole image from its first word to the halt behind its assignments.
-/

namespace Lamcode.Simulation

open Layout Emit Operand Reference

variable {I : Image}

/-! ## All of the evaluator -/

/-- The code does what all parts of the evaluator do with this fuel. -/
structure Simulates (I : Image) (fuel : Nat) : Prop where
  evaluates : Evaluates I fuel
  items : EvaluatesItems I fuel
  applies : Applies I fuel
  assignment : EvaluatesAssignment I fuel
  all : EvaluatesAll I fuel

theorem simulates_zero (I : Image) : Simulates I 0 where
  evaluates h := nomatch h
  items h := nomatch h
  applies h := nomatch h
  assignment h := nomatch h
  all h := nomatch h

theorem evaluates_succ {fuel : Nat} (h : Simulates I fuel) : Evaluates I (fuel + 1) := by
  intro depth env e v st S site scope a a' b b' heval hs hscoped henv
  cases e with
  | number _ n => exact evaluates_number heval hs
  | var _ name =>
    obtain rfl := hscoped
    exact evaluates_var heval hs henv
  | group _ inner =>
    rw [eval] at heval
    exact h.evaluates heval hs.group hscoped.2 henv
  | tuple _ items => exact evaluates_tuple h.items heval hs hscoped henv
  | call _ f x => exact evaluates_call h.evaluates h.applies heval hs hscoped henv
  | function _ param body => exact evaluates_function heval hs hscoped henv

theorem applies_succ {fuel : Nat} (h : Simulates I fuel) : Applies I (fuel + 1) := by
  intro depth f x v st S y z r captured entry resume happly hf hentry hcaptured hr hz hx hrecord hresume hlt
  cases f with
  | int n => cases happly
  | tuple items => cases happly
  | closure env param body =>
    exact applies_closure h.evaluates happly hf hentry hcaptured hr hz hx hrecord hresume hlt
  | builtin b args =>
    rw [apply] at happly
    exact applies_builtin happly hf hentry hcaptured hr hz hx hrecord hresume hlt

/-- The code does what the evaluator does, whatever its fuel. -/
theorem simulates (I : Image) (fuel : Nat) : Simulates I fuel := by
  induction fuel with
  | zero => exact simulates_zero I
  | succ fuel ih =>
    exact ⟨evaluates_succ ih, evaluatesItems_succ ih.evaluates ih.items, applies_succ ih,
      evaluatesAssignment_succ ih.evaluates ih.all, evaluatesAll_succ ih.assignment ih.all⟩

/-! ## A loaded image -/

/-- Of a loaded image the words that never change are known. -/
def frozenWorld (I : Image) : World I where
  word x := (I.layout.frozen x).map .fixed
  of_frozen h := by rw [h, Option.map_some]
  free := by
    intro x c h
    obtain ⟨v, hv, -⟩ := Option.map_eq_some_iff.1 h
    have hstack := I.stack_fits
    have hheap := I.heap_fits
    have hbounds := I.frozen_bounds hv
    exact ⟨hbounds.1, by omega, I.layout.not_scratch_of_frozen hv⟩
  ne_cursor := by
    rintro x c h rfl
    rw [I.frozen_cursor] at h
    cases h
  not_onStack := by
    intro x c h hstack
    obtain ⟨v, hv, -⟩ := Option.map_eq_some_iff.1 h
    have hbounds := I.frozen_bounds hv
    have := hstack.1
    omega
  slot_unique := by
    intro x y k i h
    obtain ⟨v, -, hv⟩ := Option.map_eq_some_iff.1 h
    cases hv

/-- The slots of the globals, as words of frame 0. -/
def globalSlot (I : Image) (n : Nat) (x : Int) : Option Content :=
  if I.globalRecord + 1 ≤ x ∧ x < I.globalRecord + 1 + n then
    some (.slot 0 (x - (I.globalRecord + 1)).toNat)
  else none

theorem globalSlot_eq_some {n : Nat} {x : Int} {c : Content} (h : globalSlot I n x = some c) :
    ∃ i : Nat, i < n ∧ x = (I.globalRecord + 1 + i : Nat) ∧ c = .slot 0 i := by
  unfold globalSlot at h
  split at h
  · next hx => exact ⟨(x - (I.globalRecord + 1)).toNat, by omega, by omega, (Option.some.inj h).symm⟩
  · cases h

theorem globalSlot_slot {n i : Nat} (hi : i < n) :
    globalSlot I n (I.globalRecord + 1 + i) = some (.slot 0 i) := by
  rw [globalSlot, if_pos (by omega)]
  congr 2
  omega

section Boots

variable {assignments : List (Assignment Site Header)} {words : List Int}

/-- A loaded image, in front of its first instruction. -/
def loadedScene (hboots : Boots I assignments words) (inputs : List Int) : Scene I where
  world := frozenWorld I
  state := firstState assignments.length inputs
  mem x := (Memory.ofWords words).get x.toNat
  mem_of_fixed := by
    intro x v h
    obtain ⟨w, hw, hv⟩ := Option.map_eq_some_iff.1 h
    cases hv
    obtain ⟨a, rfl, ha⟩ := hboots.word_of_frozen hw
    rw [Memory.get_ofWords, Int.toNat_natCast, ha, Option.getD_some]
  slot_of_word := by
    intro x k i h
    obtain ⟨v, -, hv⟩ := Option.map_eq_some_iff.1 h
    cases hv
  mem_cursor := by
    rw [Memory.get_ofWords, Int.toNat_natCast, hboots.word_cursor, Option.getD_some]
    exact (Int.add_zero _).symm
  heap_le := Nat.zero_le _
  unused := by
    intro x hx
    have hstack := I.stack_fits
    have hle : (I.ramBegin : Int) ≤ x := by
      simpa [firstState] using hx
    constructor
    · rcases hword : (frozenWorld I).word x with _ | c
      · rfl
      · obtain ⟨v, hv, -⟩ := Option.map_eq_some_iff.1 hword
        have hbounds := I.frozen_bounds hv
        omega
    · have hlength := hboots.length_words
      rw [Memory.get_ofWords, List.getElem?_eq_none (by omega), Option.getD_none]

/-- The slots of the globals are words of the image that nothing is known of yet, and 0. -/
theorem loose_global (hboots : Boots I assignments words) (inputs : List Int) {i : Nat}
    (hi : i < assignments.length) :
    (loadedScene hboots inputs).Loose (I.globalRecord + 1 + i : Nat) ∧
      ¬ I.OnStack (I.globalRecord + 1 + i : Nat) ∧
      (loadedScene hboots inputs).mem (I.globalRecord + 1 + i : Nat) = 0 := by
  obtain ⟨hfrozen, hscratch, hlt⟩ := hboots.free_slot hi
  have hcursor := I.cursor_lt
  have hstack := I.stack_fits
  have hheap := I.heap_fits
  have htop := (loadedScene hboots inputs).ramBegin_le_top
  refine ⟨⟨?_, by omega, ⟨by omega, by omega, hscratch⟩, by omega⟩, fun h => ?_, ?_⟩
  · change (I.layout.frozen _).map _ = none
    rw [hfrozen, Option.map_none]
  · have := h.1
    omega
  · change (Memory.ofWords words).get _ = 0
    rw [Memory.get_ofWords, Int.toNat_natCast, hboots.word_slot hi, Option.getD_some]

theorem admits_globalSlot (hboots : Boots I assignments words) (inputs : List Int) :
    (loadedScene hboots inputs).Admits (globalSlot I assignments.length) := by
  have hslot : ∀ {x c}, globalSlot I assignments.length x = some c →
      (loadedScene hboots inputs).Loose x ∧ ¬ I.OnStack x := by
    intro x c h
    obtain ⟨i, hi, rfl, -⟩ := globalSlot_eq_some h
    exact ⟨(loose_global hboots inputs hi).1, (loose_global hboots inputs hi).2.1⟩
  refine ⟨⟨fun h => (hslot h).1.word_eq, fun h => (hslot h).1.free, fun h => (hslot h).1.ne_cursor,
    fun h => (hslot h).2, ?_, ?_⟩, ?_, ?_, fun h => (hslot h).1.lt_top⟩
  · intro x y k i h h'
    obtain ⟨j, -, rfl, hj⟩ := globalSlot_eq_some h
    obtain ⟨j', -, rfl, hj'⟩ := globalSlot_eq_some h'
    cases hj
    cases hj'
    rfl
  · intro x y k i _ h'
    obtain ⟨v, -, hv⟩ := Option.map_eq_some_iff.1 h'
    cases hv
  · intro x v h
    obtain ⟨i, -, -, hc⟩ := globalSlot_eq_some h
    cases hc
  · intro x k i h
    obtain ⟨j, hj, rfl, hc⟩ := globalSlot_eq_some h
    cases hc
    rw [(loose_global hboots inputs hj).2.2]
    exact ⟨_, .int 0, rfl, List.getElem?_replicate_of_lt hj, .int 0⟩

/-- A loaded image whose globals are slots of frame 0. -/
def firstScene (hboots : Boots I assignments words) (inputs : List Int) : Scene I :=
  (loadedScene hboots inputs).learn _ (admits_globalSlot hboots inputs)

/-- Loading an image makes a machine that looks like the first scene. -/
theorem matches_firstScene (hboots : Boots I assignments words) (inputs : List Int) (status : Status) :
    I.layout.Matches (((firstScene hboots inputs).data 0).config 0)
      { Machine.ofWords words with status := status } :=
  matches_loadedMem words _ status

/-- The record of the globals is in slot -2 of the first frame. -/
theorem encloses_firstScene (hboots : Boots I assignments words) (inputs : List Int) :
    Encloses I (firstScene hboots inputs).world I.scopes [.block (assignments.map Assignment.name) 0]
      ScopeTable.globals ((firstScene hboots inputs).mem (I.base 0 - 2)) := by
  have hmem : (firstScene hboots inputs).mem (I.base 0 - 2) = I.globalRecord := by
    change (Memory.ofWords words).get (I.base 0 - 2).toNat = _
    rw [show (I.base 0 - 2).toNat = I.stackBegin by unfold Image.base; omega, Memory.get_ofWords,
      hboots.word_stackBegin, Option.getD_some]
  rw [hmem]
  refine .globals hboots.get_builtins hboots.get_globals fun i hi => ?_
  exact World.word_learn (admits_globalSlot hboots inputs).toAdmits
    (globalSlot_slot (by rwa [List.length_map] at hi))

/-! ## The run of an image -/

/-- The first instruction moves the base to the first frame. -/
theorem start_runs (hboots : Boots I assignments words) (inputs : List Int) {site : Site} {a : Nat}
    (hs : Stands I.layout I.scopes site (adjustBase (.offset (.addressOf .stackBegin) (.int 2))) 0 a) :
    I.layout.Runs (((firstScene hboots inputs).data 0).config 0)
      (((firstScene hboots inputs).data (I.base 0)).config a) := by
  have hruns := runs_start (q := (firstScene hboots inputs).state.queue) (Scene.loaded (S := firstScene hboots inputs))
    hboots.address_stackBegin hs
  rw [← Int.add_zero ((I.stackBegin : Int) + 2)] at hruns
  exact hruns

/-- What is reached in front of the halt: a scene with the final state of the evaluator, in which the slots of the
globals still are slots. -/
theorem exists_lastScene (hboots : Boots I assignments words) {inputs : List Int} {fuel : Nat}
    {final : State Site} (hrun : Reference.run I.room fuel assignments inputs = .ok final) :
    ∃ (S : Scene I) (m : Machine),
      S.state = final ∧ (firstScene hboots inputs).world.Extends S.world ∧
      Machine.Reaches Queue.host ({ Machine.ofWords words with status := .running }, .ofInputs inputs)
        (m, final.queue) ∧
      I.layout.Shows S.mem m ∧ m.memory.get m.ip.toNat = Opcode.halt.code := by
  obtain ⟨site, a₁, a₂, h, h', hstart, hmain, hhalt⟩ := hboots.code
  obtain ⟨S, rfl, hruns, hlater⟩ := (simulates I fuel).all (run_eq_ok.1 hrun) hmain hboots.scopedIn (Nat.zero_le _)
    (encloses_firstScene hboots inputs)
  obtain ⟨m, hreaches, hmatches, -⟩ := (start_runs hboots inputs hstart).trans hruns _
    (matches_firstScene hboots inputs .running)
  exact ⟨S, m, rfl, hlater.extends_world, hreaches, hmatches.shows, get_ip_of_halt S.loaded hhalt hmatches⟩

end Boots

end Lamcode.Simulation
