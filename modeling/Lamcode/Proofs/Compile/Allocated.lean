import Lamcode.Failure
import Lamcode.Proofs.Result
import Lamcode.Proofs.Simulation.Allocate
import Lamcode.Proofs.Simulation.Linked

/-!
# Lamcode.Proofs.Compile.Allocated — the heap of programs without calls, word for word

A compiled program without calls is run to its halt by every machine that has room for its stack and its heap. What it
leaves on the heap and in the slots of its globals is what the walk over its trees leaves there, and how much that is
can be read off the trees.
-/

namespace Lamcode

open Bump Layout Emit

namespace Simulation

variable {I : Image}

section Boots

variable {assignments : List (Assignment Site Header)} {words : List Int}

/-- A loaded image holds the state that the walk starts in. -/
theorem Boots.holds (hboots : Boots I assignments words) (bodies : List Int) :
    Holds I ⟨I.ramBegin, loadedMem words, bodies⟩ (loadedMem words) where
  loaded := loaded_loadedMem hboots.word_of_frozen
  cursor := by rw [loadedMem_natCast, hboots.word_cursor, Option.getD_some]
  word _ _ := rfl
  unused x hx := by
    have hlength := hboots.length_words
    have hstack := I.stack_fits
    exact loadedMem_of_length_le (by change (I.ramBegin : Int) ≤ x at hx; omega)
  ramBegin_le := Int.le_refl _
  cursor_le := by
    have hheap := I.heap_fits
    change (I.ramBegin : Int) ≤ Memory.addressLimit
    omega

/-- The slots of the globals are words that are stored to. -/
theorem Boots.plain_slot (hboots : Boots I assignments words) {i : Nat} (hi : i < assignments.length) :
    I.Plain (I.globalRecord + (Heap.recordHeader + i : Nat)) ∧
      I.layout.frozen (I.globalRecord + (Heap.recordHeader + i : Nat)) = none ∧
      I.globalRecord + (Heap.recordHeader + i) < I.ramBegin := by
  obtain ⟨hfrozen, hscratch, hlt⟩ := hboots.free_slot hi
  have hcursor := I.cursor_lt
  have hstack := I.stack_fits
  have hheap := I.heap_fits
  rw [show (I.globalRecord : Int) + (Heap.recordHeader + i : Nat) = (I.globalRecord + 1 + i : Nat) by
    simp only [Heap.recordHeader]
    omega]
  refine ⟨⟨⟨by omega, by omega, hscratch⟩, fun h => ?_, by omega⟩, hfrozen, ?_⟩
  · have := h.1
    omega
  · simp only [Heap.recordHeader]
    omega

/-- The scopes around the assignments of a program that has any. -/
theorem Boots.pictures (hboots : Boots I assignments words) (hpos : 0 < assignments.length) (st : State) :
    Pictures I st [(assignments.map Assignment.name, I.globalRecord),
      (I.builtins.map Builtin.name, I.builtinRecord)] ScopeTable.globals := by
  refine .globals hboots.get_builtins hboots.get_globals ?_ fun i hi => ?_
  · have hlt := (hboots.plain_slot hpos).2.2
    omega
  · rw [List.length_map] at hi
    exact hboots.plain_slot hi

end Boots

/-- The image of a program without calls gets to its halt, and leaves what the walk leaves. -/
theorem Image.MadeFrom.exists_holds {p : Program} {o : Options} {bodies : List Label} {asm : Assembly}
    (hmade : I.MadeFrom p o bodies asm) (hpos : 0 < p.assignments.length) (hfree : p.callFree = true)
    (hroom : Assignment.stackWordsOf p.assignments ≤ I.room.stack)
    (hheap : I.ramBegin + p.heapWords ≤ Memory.addressLimit) :
    ∃ mem a, I.layout.Runs ((⟨0, loadedMem asm.words, .ofInputs []⟩ : Data).config 0)
        ((⟨I.stackBegin + 2, mem, .ofInputs []⟩ : Data).config a) ∧ I.layout.CodeAt a halt ∧
      Holds I (Assignment.allocateAll [(p.assignments.map Assignment.name, I.globalRecord),
        (I.builtins.map Builtin.name, I.builtinRecord)] p.assignments
        ⟨I.ramBegin, loadedMem asm.words, bodies.map I.addressOf⟩) mem := by
  have hboots := hmade.boots
  obtain ⟨site, a₁, a₂, h, h', hstart, hmain, hhalt⟩ := hmade.code
  have hholds := hboots.holds (bodies.map I.addressOf)
  have hbase : I.base 0 = I.stackBegin + 2 := Int.add_zero _
  have hrecord : loadedMem asm.words (I.base 0 - 2) = I.globalRecord := by
    rw [hbase, show (I.stackBegin : Int) + 2 - 2 = I.stackBegin by omega, loadedMem_natCast, hboots.word_stackBegin,
      Option.getD_some]
  have hcursor : (I.ramBegin : Int) + Assignment.heapWordsOf p.assignments ≤ Memory.addressLimit := by
    exact_mod_cast hheap
  have hawaits : Awaits I bodies [] ⟨I.ramBegin, loadedMem asm.words, bodies.map I.addressOf⟩ := rfl
  have hready : FrameReady I _ ScopeTable.globals _ (loadedMem asm.words) (I.base 0) :=
    ⟨hholds, hboots.pictures hpos _, hrecord⟩
  obtain ⟨mem, hfills⟩ := allocatesAll p.assignments (q := .ofInputs []) hfree hboots.scopedIn hmain
    (List.prefix_refl _) (by omega) hcursor hawaits hready fun x hx => List.mem_map_of_mem hx
  have hruns := hfills.runs
  rw [hbase] at hruns
  exact ⟨mem, a₂, (runs_start hholds.loaded hboots.address_stackBegin hstart).trans hruns, hhalt, hfills.holds⟩

/-- The image of a program without assignments gets to its halt at once. -/
theorem Placed.runs_of_nil {p : Program} {o : Options} {bodies : List Label} {asm : Assembly} {P : Parts} {L : Layout}
    {record globalRecord cursor : Nat} (hplaced : Placed p o bodies asm P L record globalRecord cursor)
    (hnil : p.assignments = []) (hmem : L.Loaded (loadedMem asm.words)) :
    ∃ a, L.Runs ((⟨0, loadedMem asm.words, .ofInputs []⟩ : Data).config 0)
        ((⟨(cursor + 1 : Nat) + 2, loadedMem asm.words, .ofInputs []⟩ : Data).config a) ∧ L.CodeAt a halt := by
  obtain ⟨site, a₁, a₂, h, h', hstart, hmain, hhalt⟩ := hplaced.code
  rw [hnil] at hmain
  obtain rfl := hmain.stands.assignments_nil
  exact ⟨_, runs_start hmem (hplaced.standing.stackBeginUsed.address _ (List.mem_singleton_self _)) hstart, hhalt⟩

/-- A machine that is loaded with an image halts where the image gets to its halt. -/
theorem exists_halted_of_runs {L : Layout} {words inputs : List Int} {b : Int} {mem : Int → Int} {q : Queue} {a : Nat}
    (hruns : L.Runs ((⟨0, loadedMem words, .ofInputs inputs⟩ : Data).config 0) ((⟨b, mem, q⟩ : Data).config a))
    (hmem : L.Loaded mem) (hhalt : L.CodeAt a halt) :
    ∃ n m, (∀ bound ≥ n, Machine.runToHalt Queue.host bound (.ofWords words) (.ofInputs inputs) =
        some (.ok (), m, q)) ∧
      m.base = b ∧ L.Shows mem m := by
  obtain ⟨m, hreaches, hmatches, -⟩ := hruns _ (matches_loadedMem words _ .running)
  obtain ⟨n, hn⟩ := Machine.Reaches.runToHalt_eq rfl hreaches (get_ip_of_halt hmem hhalt hmatches)
  exact ⟨n, _, hn, hmatches.base, hmatches.shows⟩

end Simulation

open Simulation

namespace Compiled

/-- The machine has what the walk over the program leaves: the cursor, the words of the heap below it and the globals. -/
structure Leaves (c : Compiled) (p : Program) (ramBegin : Nat) (m : Machine) : Prop where
  cursor : m.memory.get (c.addressOf .ramPointer) = (c.allocated p ramBegin).cursor
  heap : ∀ a : Nat, ramBegin ≤ a → a < (c.allocated p ramBegin).cursor →
    m.memory.get a = (c.allocated p ramBegin).word a
  globals : ∀ {name : String} {a : Nat}, c.globalSlot? name = some a →
    m.memory.get a = (c.allocated p ramBegin).word a

variable {c : Compiled} {p : Program}

/-- The cursor moves by the words that the trees of the program ask for. -/
theorem cursor_allocated (c : Compiled) (p : Program) (ramBegin : Nat) :
    (c.allocated p ramBegin).cursor = ramBegin + p.heapWords :=
  Assignment.cursor_allocateAll ..

theorem addressOf_eq {l : Label} {a : Nat} (h : c.assembly.addresses[l.index]? = some a) : c.addressOf l = a := by
  rw [addressOf, Assembly.address?, h, Option.getD_some]

end Compiled

namespace Simulation

variable {I : Image} {p : Program} {o : Options} {c : Compiled}

/-- The walk over the program and the one over its image are the same. -/
theorem Image.MadeFrom.allocated_eq (hmade : I.MadeFrom p o c.labels.bodies c.assembly)
    (hbuiltins : c.builtins = Builtin.chosen p.usedNames) (hglobals : c.globals = p.assignments.map Assignment.name) :
    c.allocated p o.ramBegin = Assignment.allocateAll [(p.assignments.map Assignment.name, I.globalRecord),
      (I.builtins.map Builtin.name, I.builtinRecord)] p.assignments
      ⟨I.ramBegin, loadedMem c.assembly.words, c.labels.bodies.map I.addressOf⟩ := by
  have haddresses := hmade.addresses_eq
  have hrecord : c.addressOf .globalScope = I.globalRecord :=
    Compiled.addressOf_eq (haddresses ▸ I.address_globals)
  have hbuiltinRecord : c.addressOf .builtinScope = I.builtinRecord :=
    Compiled.addressOf_eq (haddresses ▸ I.address_builtins)
  have hbodies : (c.labels.bodies.map fun l => (c.addressOf l : Int)) = c.labels.bodies.map I.addressOf := by
    refine List.map_congr_left fun l _ => ?_
    rw [Image.addressOf, haddresses]
    rfl
  rw [Compiled.allocated, Compiled.outerScopes, Compiled.loaded, hbodies, hrecord, hbuiltinRecord, hglobals, hbuiltins,
    hmade.builtins_eq, hmade.ramBegin_eq]
  rfl

/-- A machine that shows what the walk leaves has it. -/
theorem Holds.leaves {mem : Int → Int} {m : Machine} (hmade : I.MadeFrom p o c.labels.bodies c.assembly)
    (hglobals : c.globals = p.assignments.map Assignment.name) (hholds : Holds I (c.allocated p o.ramBegin) mem)
    (hshows : I.layout.Shows mem m) : c.Leaves p o.ramBegin m := by
  have hget : ∀ a : Nat, I.Plain a → m.memory.get a = (c.allocated p o.ramBegin).word a := fun a ha =>
    (hshows a ha.free.2.2).trans (hholds.word ha.not_onStack ha.ne_cursor)
  refine ⟨?_, fun a hle hlt => hget a (Image.plain_of_heap ?_ ?_), fun {name a} ha => ?_⟩
  · rw [Compiled.addressOf_eq (hmade.addresses_eq ▸ I.address_cursor), hshows _ I.not_scratch_cursor, hholds.cursor]
  · rw [hmade.ramBegin_eq]
    exact_mod_cast hle
  · have := hholds.cursor_le
    omega
  · simp only [Compiled.globalSlot?, Option.bind_eq_bind, Option.bind_eq_some_iff] at ha
    obtain ⟨i, hi, record, hrecord, ha⟩ := ha
    cases ha
    obtain rfl : I.globalRecord = record := by
      rw [Compiled.globalScope?, Assembly.address?, ← hmade.addresses_eq, I.address_globals] at hrecord
      exact Option.some.inj hrecord
    have hlt := (List.idxOf?_eq_some_iff.1 hi).1
    rw [hglobals, List.length_map] at hlt
    refine hget _ ?_
    rw [show ((I.globalRecord + Heap.recordHeader + i : Nat) : Int) = I.globalRecord + (Heap.recordHeader + i : Nat) by
      omega]
    exact (hmade.boots.plain_slot hlt).1

variable {P : Parts} {L : Layout} {record globalRecord cursor : Nat}

/-- A program with assignments halts, and leaves what the walk leaves. -/
theorem Placed.exists_leaves (hplaced : Placed p o c.labels.bodies c.assembly P L record globalRecord cursor)
    (hp : p.WellScoped) (hbuiltins : c.builtins = Builtin.chosen p.usedNames)
    (hglobals : c.globals = p.assignments.map Assignment.name) (hpos : 0 < p.assignments.length)
    (hfree : p.callFree = true)
    (hstack : c.words.length + 1 + Assignment.stackWordsOf p.assignments ≤ o.ramBegin)
    (hheap : o.ramBegin + p.heapWords ≤ Memory.addressLimit) :
    ∃ n m stackBegin, c.stackBegin? = some stackBegin ∧
      (∀ bound ≥ n, Machine.runToHalt Queue.host bound (.ofWords c.words) (.ofInputs []) =
        some (.ok (), m, .ofInputs [])) ∧
      m.base = stackBegin + 2 ∧ c.Leaves p o.ramBegin m := by
  obtain ⟨I, hroom, hmade⟩ : ∃ I : Image, I.room = ⟨Assignment.stackWordsOf p.assignments, p.heapWords⟩ ∧
      I.MadeFrom p o c.labels.bodies c.assembly := hplaced.exists_image hp hstack hheap
  obtain ⟨mem, a, hruns, hhalt, hholds⟩ := hmade.exists_holds hpos hfree (Nat.le_of_eq (by rw [hroom]))
    (by rwa [hmade.ramBegin_eq])
  obtain ⟨n, m, hhalted, hbase, hshows⟩ := exists_halted_of_runs hruns hholds.loaded hhalt
  rw [← hmade.allocated_eq hbuiltins hglobals] at hholds
  refine ⟨n, m, I.stackBegin, ?_, hhalted, hbase, hholds.leaves hmade hglobals hshows⟩
  rw [Compiled.stackBegin?, Assembly.address?, ← hmade.addresses_eq, hmade.boots.address_stackBegin]

/-- A program without assignments halts and leaves everything as it is, even if nothing is free between the image and
the heap. -/
theorem Placed.exists_leaves_of_nil (hplaced : Placed p o c.labels.bodies c.assembly P L record globalRecord cursor)
    (hglobals : c.globals = p.assignments.map Assignment.name) (hnil : p.assignments = []) :
    ∃ n m stackBegin, c.stackBegin? = some stackBegin ∧
      (∀ bound ≥ n, Machine.runToHalt Queue.host bound (.ofWords c.words) (.ofInputs []) =
        some (.ok (), m, .ofInputs [])) ∧
      m.base = stackBegin + 2 ∧ c.Leaves p o.ramBegin m := by
  have hmem : L.Loaded (loadedMem c.assembly.words) := loaded_loadedMem fun hx => by
    obtain ⟨a, rfl, -, ha⟩ := hplaced.word_of_frozen hx
    exact ⟨a, rfl, ha⟩
  have hL := hplaced.standing
  have hcursor : c.assembly.addresses[Label.ramPointer.index]? = some cursor :=
    hplaced.addresses_eq ▸ hL.cursorUsed.address _ (List.mem_singleton_self _)
  have hstackBegin : c.assembly.addresses[Label.stackBegin.index]? = some (cursor + 1) :=
    hplaced.addresses_eq ▸ hL.stackBeginUsed.address _ (List.mem_singleton_self _)
  have hallocated : c.allocated p o.ramBegin = c.loaded o.ramBegin := by
    rw [Compiled.allocated, hnil]
    rfl
  obtain ⟨a, hruns, hhalt⟩ := hplaced.runs_of_nil hnil hmem
  obtain ⟨n, m, hhalted, hbase, hshows⟩ := exists_halted_of_runs hruns hmem hhalt
  refine ⟨n, m, cursor + 1, hstackBegin, hhalted, hbase, ?_, fun a hle hlt => ?_, fun {name a} ha => ?_⟩
  · obtain ⟨v, hv, hword⟩ := hL.cursorUsed.word
    cases hv
    rw [Compiled.addressOf_eq hcursor, hshows _ hL.cursorUsed.content.2, loadedMem_natCast, hword, Option.getD_some,
      hplaced.ramBegin_eq, hallocated]
    rfl
  · rw [hallocated] at hlt
    change (a : Int) < o.ramBegin at hlt
    omega
  · simp [Compiled.globalSlot?, hglobals, hnil] at ha

end Simulation

/-- Programs without calls have exactly the heap that the walk over their trees gives. With room for their stack behind
the image, and with addresses for all words that they ask for, they halt without having read or written anything, the
base where it was set at the start, and on the heap and in the slots of the globals there is word for word what the
walk leaves, up to the cursor that has moved by what the trees ask for. Each function that is written has the label
that the walk takes for it. -/
theorem runToHalt_of_callFree {source : String} {p : Program} {o : Options} {c : Compiled}
    (hparse : Program.parse source = .ok p) (hcompile : Compile.program p o = .ok c) (hfree : p.callFree = true)
    (hstack : c.words.length + p.stackWords ≤ o.ramBegin)
    (hheap : o.ramBegin + p.heapWords ≤ Memory.addressLimit) :
    (∃ n m stackBegin, c.stackBegin? = some stackBegin ∧
      (∀ bound ≥ n, Machine.runToHalt Queue.host bound (.ofWords c.words) (.ofInputs []) =
        some (.ok (), m, .ofInputs [])) ∧
      m.base = stackBegin + 2 ∧ c.Leaves p o.ramBegin m) ∧
      (c.allocated p o.ramBegin).cursor = o.ramBegin + p.heapWords ∧
      c.labels.bodies.length = Assignment.functionsOf p.assignments := by
  obtain ⟨d, s, hdraft, hlink, hlabels, hbuiltins, hglobals⟩ := Compile.exists_of_program hcompile
  have hp := Program.wellScoped_of_parse hparse
  rw [hp.get_globals] at hglobals
  have hlimit : c.assembly.words.length ≤ Memory.addressLimit := by
    change c.words.length ≤ _
    omega
  obtain ⟨P, L, record, globalRecord, cursor, hplaced⟩ := exists_placed hdraft hlink hlimit
  rw [← hlabels] at hplaced
  refine ⟨?_, c.cursor_allocated p _, ?_⟩
  · by_cases hnil : p.assignments = []
    · exact hplaced.exists_leaves_of_nil hglobals hnil
    · have hwords : p.stackWords = 1 + Assignment.stackWordsOf p.assignments := by
        rw [Program.stackWords, List.isEmpty_eq_false_iff.2 hnil]
        rfl
      exact hplaced.exists_leaves hp hbuiltins hglobals (List.length_pos_of_ne_nil hnil) hfree (by omega) hheap
  · obtain ⟨site, a₁, a₂, h, h', -, hmain, -⟩ := hplaced.code
    obtain ⟨ls, hls, hbodies⟩ := hmain.exists_bodies (.assignments _ p.assignments)
    rw [hbodies, List.nil_append, hls]

/-- A tuple with clauses, of which the first one asks for the last one before it has run, and one that is taken up
again. -/
def nestedPair : String :=
  "pair = [x, f] where\n  x = [1, y]\n  f = n => [n, x]\n  y = 2\nlast = [pair, []]"

/-- The heap of the program, when it starts at the first address that is not needed for its stack. -/
theorem runToHalt_nestedPair :
    ∃ p c n m, Program.parse nestedPair = .ok p ∧ Compile.program p ⟨some 7, 622⟩ = .ok c ∧ p.callFree = true ∧
      c.words.length + p.stackWords = 622 ∧ p.heapWords = 20 ∧
      (∀ bound ≥ n, Machine.runToHalt Queue.host bound (.ofWords c.words) (.ofInputs []) =
        some (.ok (), m, .ofInputs [])) ∧
      (List.range 20).map (fun i => m.memory.get (622 + i)) =
        -- the record of `pair`, then `x`, `f` and `y`, each behind its own record
        [494, 627, 631, 2, 622, 2, 1, 0, 622, 497, 630, 622,
        -- the two tuples at the top, the second one behind its record and in front of the empty one
          2, 627, 631, 494, 2, 634, 641, 0] := by
  have h : (Program.parse nestedPair).toOption.any (fun p =>
      (Compile.program p ⟨some 7, 622⟩).toOption.any fun c =>
        decide (p.callFree = true ∧ c.words.length + p.stackWords = 622 ∧ p.heapWords = 20 ∧
          (List.range 20).map (fun i => (c.allocated p 622).word (622 + i : Nat)) =
            [494, 627, 631, 2, 622, 2, 1, 0, 622, 497, 630, 622, 2, 627, 631, 494, 2, 634, 641, 0])) = true := by
    decide +kernel
  obtain ⟨p, hparse, h⟩ := exists_ok_of_any h
  obtain ⟨c, hcompile, h⟩ := exists_ok_of_any h
  obtain ⟨hfree, hstack, hheap, hwords⟩ := of_decide_eq_true h
  obtain ⟨⟨n, m, stackBegin, -, hhalted, -, hleaves⟩, hcursor, -⟩ := runToHalt_of_callFree hparse hcompile hfree
    (Nat.le_of_eq hstack) (by rw [hheap]; decide)
  refine ⟨p, c, n, m, hparse, hcompile, hfree, hstack, hheap, hhalted, ?_⟩
  rw [← hwords]
  refine List.map_congr_left fun i hi => hleaves.heap _ (Nat.le_add_right _ _) ?_
  rw [hcursor, hheap]
  have := List.mem_range.1 hi
  change ((622 + i : Nat) : Int) < (622 : Nat) + (20 : Nat)
  omega

/-- A heap that starts at the last address has none for the second of the two words that the empty tuple and the record
of its assignment need. -/
theorem runToHalt_past_addressLimit :
    ∃ p c m q, Program.parse "x = []" = .ok p ∧ Compile.program p ⟨none, Memory.addressLimit - 1⟩ = .ok c ∧
      p.callFree = true ∧ c.words.length + p.stackWords ≤ Memory.addressLimit - 1 ∧ p.heapWords = 2 ∧
      Machine.runToHalt Queue.host 100 (.ofWords c.words) (.ofInputs []) =
        some (.error (.addressOutOfRange Memory.addressLimit), m, q) := by
  have h : (Program.parse "x = []").toOption.any (fun p =>
      (Compile.program p ⟨none, Memory.addressLimit - 1⟩).toOption.any fun c =>
        (Machine.runToHalt Queue.host 100 (.ofWords c.words) (.ofInputs [])).any fun r =>
          decide (p.callFree = true ∧ c.words.length + p.stackWords ≤ Memory.addressLimit - 1 ∧ p.heapWords = 2 ∧
            r.1 = .error (.addressOutOfRange Memory.addressLimit))) = true := by
    decide +kernel
  obtain ⟨p, hparse, h⟩ := exists_ok_of_any h
  obtain ⟨c, hcompile, h⟩ := exists_ok_of_any h
  obtain ⟨⟨fault, m, q⟩, hrun, h⟩ := (Option.any_eq_true _ _).1 h
  obtain ⟨hfree, hstack, hheap, rfl⟩ := of_decide_eq_true h
  exact ⟨p, c, m, q, hparse, hcompile, hfree, hstack, hheap, hrun⟩

end Lamcode
