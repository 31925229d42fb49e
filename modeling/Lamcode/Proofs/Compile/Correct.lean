import Lamcode.Failure
import Lamcode.Proofs.Simulation.Program

/-!
# Lamcode.Proofs.Compile.Correct — compiling keeps the meaning of programs

The evaluator gives a program its meaning. Where it comes to an end within some memory, the compiled image, run on a
machine with that much room behind the image and behind its first heap address, halts; it has read and written
what the evaluator has, and every global is in its slot.
-/

namespace Lamcode

open Reference Simulation

/-- The word `x` is what a value looks like in memory: a number is itself, a tuple the address of its length, behind
which its elements stand. Of a function nothing can be seen but by calling it. -/
inductive Stored {α : Type} (mem : Memory) : Value α → Int → Prop
  | int (n : Int) : Stored mem (.int n) n
  | tuple {items : List (Value α)} {a : Nat} : mem.get a = items.length →
    (∀ (i : Nat) (v : Value α), items[i]? = some v → Stored mem v (mem.get (a + 1 + i))) →
    Stored mem (.tuple items) a
  | closure (env : Env α) (param : String) (body : Expr α) (x : Int) : Stored mem (.closure env param body) x
  | builtin (b : Builtin) (args : List (Value α)) (x : Int) : Stored mem (.builtin b args) x

namespace Simulation

variable {I : Image} {W : World I} {mem : Memory}

mutual

/-- A memory that holds the fixed words of a world stores the values that are represented in it. -/
theorem Represents.stored (hmem : ∀ {x v}, W.word x = some (.fixed v) → ∃ a : Nat, x = a ∧ mem.get a = v)
    {v : Value Site} {x : Int} : Represents I W v x → Stored mem v x
  | .int n => .int n
  | .tuple hx hitems => by
    obtain ⟨a, rfl, ha⟩ := hmem hx
    exact .tuple ha fun i v hv => hitems.stored hmem rfl hv
  | .closure .. => .closure ..
  | .builtin .. => .builtin ..
  | .unit .. => .builtin ..

theorem RepresentsAll.stored
    (hmem : ∀ {x v}, W.word x = some (.fixed v) → ∃ a : Nat, x = a ∧ mem.get a = v)
    {vs : List (Value Site)} {x : Int} {a i : Nat} {v : Value Site} :
    RepresentsAll I W vs x → x = (a + 1 : Nat) → vs[i]? = some v → Stored mem v (mem.get (a + 1 + i))
  | .nil _, _, hv => nomatch hv
  | .cons hx hv hvs, heq, hi => by
    obtain ⟨b, rfl, hb⟩ := hmem hx
    obtain rfl : b = a + 1 := by omega
    cases i with
    | zero =>
      cases hi
      rw [Nat.add_zero, hb]
      exact hv.stored hmem
    | succ i =>
      rw [show a + 1 + (i + 1) = a + 1 + 1 + i by omega]
      exact hvs.stored hmem (by push_cast; rfl) hi

end

/-- Every word that a scene has a use for is in the machine that looks like it. -/
theorem exists_get {S : Scene I} {m : Machine} (hshows : I.layout.Shows S.mem m) {x : Int} {c : Content}
    (hx : S.world.word x = some c) : ∃ a : Nat, x = a ∧ m.memory.get a = S.mem x := by
  obtain ⟨hnonneg, -, hscratch⟩ := S.world.free hx
  obtain ⟨a, rfl⟩ := Int.eq_ofNat_of_zero_le hnonneg
  exact ⟨a, rfl, hshows a hscratch⟩

end Simulation

/-- Where evaluation comes to an end, the image reaches its halt with what was read and written, and with every
global in its slot. -/
theorem Simulation.Boots.exists_halted {I : Image} {assignments : List (Assignment Site Header)} {words : List Int}
    (hboots : Boots I assignments words) {inputs : List Int} {fuel : Nat} {final : State Site}
    (hrun : Reference.run I.room fuel assignments inputs = .ok final) :
    ∃ n m, (∀ bound ≥ n, Machine.runToHalt Queue.host bound (.ofWords words) (.ofInputs inputs) =
        some (.ok (), m, final.queue)) ∧
      ∀ {i : Nat} {slots : List (Value Site)} {v : Value Site}, i < assignments.length →
        final.frames[0]? = some slots → slots[i]? = some v →
        Stored m.memory v (m.memory.get (I.globalRecord + 1 + i)) := by
  obtain ⟨S, m, rfl, hextends, hreaches, hshows, hhalt⟩ := exists_lastScene hboots hrun
  obtain ⟨n, hn⟩ := Machine.Reaches.runToHalt_eq rfl hreaches hhalt
  refine ⟨n, _, hn, ?_⟩
  intro i slots v hi hslots hv
  have hword : S.world.word (I.globalRecord + 1 + i) = some (.slot 0 i) :=
    hextends (World.word_learn (admits_globalSlot hboots inputs).toAdmits (globalSlot_slot hi))
  obtain ⟨slots', v', hslots', hv', hrep⟩ := S.slot_of_word hword
  obtain rfl : slots' = slots := Option.some.inj (hslots'.symm.trans hslots)
  obtain rfl : v' = v := Option.some.inj (hv'.symm.trans hv)
  obtain ⟨a, ha, hget⟩ := exists_get hshows hword
  obtain rfl : I.globalRecord + 1 + i = a := by omega
  rw [← hget] at hrep
  exact hrep.stored fun hx => by
    obtain ⟨b, rfl, hb⟩ := exists_get hshows hx
    exact ⟨b, rfl, hb.trans (S.mem_of_fixed hx)⟩

/-- Compiling keeps the meaning of a program: where its evaluation comes to an end within some memory, the compiled
image, with that much memory, halts under every bound that is large enough. It has then read and written what
evaluation has, and the slot of every global holds what its value looks like. -/
theorem runToHalt_program_of_run {source : String} {p : Program} {o : Options} {c : Compiled} {room : Room}
    {fuel : Nat} {inputs : List Int} {final : State Site} (hparse : Program.parse source = .ok p)
    (hcompile : Compile.program p o = .ok c)
    (hrun : Reference.run room fuel p.assignments inputs = .ok final)
    (hstack : c.words.length + 1 + room.stack ≤ o.ramBegin)
    (hheap : o.ramBegin + room.heap ≤ Memory.addressLimit) :
    ∃ n m, (∀ bound ≥ n, Machine.runToHalt Queue.host bound (.ofWords c.words) (.ofInputs inputs) =
        some (.ok (), m, final.queue)) ∧
      ∀ {name : String} {v : Value Site}, Reference.global? p.assignments final name = some v →
        ∃ a, c.globalSlot? name = some a ∧ Stored m.memory v (m.memory.get a) := by
  obtain ⟨d, s, hdraft, hlink, -, -, hglobals⟩ := Compile.exists_of_program hcompile
  have hp := Program.wellScoped_of_parse hparse
  obtain ⟨I, rfl, haddresses, hboots⟩ := exists_image hp hdraft hlink hstack hheap
  obtain ⟨n, m, hhalted, hstored⟩ := hboots.exists_halted hrun
  refine ⟨n, m, hhalted, ?_⟩
  intro name v hv
  simp only [global?, Option.bind_eq_bind, Option.bind_eq_some_iff] at hv
  obtain ⟨i, hi, slots, hslots, hv⟩ := hv
  refine ⟨I.globalRecord + 1 + i, ?_, hstored ?_ hslots hv⟩
  · have hnames : c.globals.idxOf? name = some i := by
      rw [hglobals, hp.get_globals]
      exact hi
    have hrecord : c.globalScope? = some I.globalRecord := by
      rw [Compiled.globalScope?, Assembly.address?, ← haddresses]
      exact I.address_globals
    simp only [Compiled.globalSlot?, hnames, hrecord, Option.bind_eq_bind, Option.bind_some, Heap.recordHeader]
    rfl
  · have hlt := (List.idxOf?_eq_some_iff.1 hi).1
    rwa [List.length_map] at hlt

/-- Counts the number it reads down to 0 and writes 7. -/
def countdown : String :=
  "down = n => lt n 1 (u => 7) (u => down (add n -1)) 0\nmain = print (down k) where k = input 0"

theorem runToHalt_countdown :
    ∃ p c final n m, Program.parse countdown = .ok p ∧ Compile.program p ⟨some 7, 5000⟩ = .ok c ∧
      Reference.run ⟨200, 1000⟩ 100 p.assignments [3] = .ok final ∧ final.queue = ⟨[], [7]⟩ ∧
      c.words.length + 1 + 200 ≤ 5000 ∧
      ∀ bound ≥ n, Machine.runToHalt Queue.host bound (.ofWords c.words) (.ofInputs [3]) =
        some (.ok (), m, final.queue) := by
  have h : (Program.parse countdown).toOption.any (fun p =>
      (Compile.program p ⟨some 7, 5000⟩).toOption.any fun c =>
        (Reference.run ⟨200, 1000⟩ 100 p.assignments [3]).toOption.any fun final =>
          decide (final.queue = ⟨[], [7]⟩ ∧ c.words.length + 1 + 200 ≤ 5000)) = true := by decide +kernel
  obtain ⟨p, hparse, h⟩ := exists_ok_of_any h
  obtain ⟨c, hcompile, h⟩ := exists_ok_of_any h
  obtain ⟨final, hrun, h⟩ := exists_ok_of_any h
  obtain ⟨hqueue, hlength⟩ := of_decide_eq_true h
  obtain ⟨n, m, hhalted, -⟩ := runToHalt_program_of_run hparse hcompile hrun hlength (by decide)
  exact ⟨p, c, final, n, m, hparse, hcompile, hrun, hqueue, hlength, hhalted⟩

end Lamcode
