import Lamcode.Proofs.Code.Division
import Lamcode.Proofs.Compile.Draft
import Lamcode.Proofs.Link.Sections
import Lamcode.Proofs.Machine.Transfer

/-!
# Lamcode.Proofs.Compile.Division — the division of a compiled program

The built-ins that divide have two levels, and the inner one runs the loop. Here it is found among the items of a
compiled program (`Compile.innermost?`), and run on any machine that has it in memory and was entered as a call enters
it: the machine comes back with the quotient or the remainder in slot 0, asks no host for anything, and changes no words
but those that a division works with (`Compile.program_divides`).
-/

namespace Lamcode

open Layout Emit Operand
open Builtin (slotOf)

/-! ## Runs that ask no host -/

namespace Machine

/-- On a queue that stays empty a machine has neither read nor written, so it does the same on every host. -/
theorem Reaches.of_empty {x y : Machine × Queue} (h : Reaches Queue.host x y) (hx : x.2.inputs = []) :
    x.2.written.length ≤ y.2.written.length ∧ (x.2.written.length = y.2.written.length →
      ∀ {σ : Type} (host : Host σ) (s : σ), Reaches host (x.1, s) (y.1, s)) := by
  induction h using Relation.ReflTransGen.head_induction_on with
  | refl => exact ⟨Nat.le_refl _, fun _ _ host s => .refl _⟩
  | @head x z hstep _ ih =>
    obtain ⟨m, q⟩ := x
    obtain ⟨m', q'⟩ := z
    have hstep : m.step Queue.host q = (.ok .proceed, m', q') := hstep
    have hx : q.inputs = [] := hx
    rw [step_eq] at hstep
    cases hdemand : m.demand with
    | halt | fault e =>
      rw [hdemand] at hstep
      cases hstep
    | read target =>
      rw [hdemand] at hstep
      simp [meet, Queue.host, Queue.pausingHost, hx] at hstep
    | write v =>
      rw [hdemand] at hstep
      cases hstep
      have hlt : q.written.length < y.2.written.length := (ih hx).1
      exact ⟨Nat.le_of_lt hlt, fun heq => absurd heq (Nat.ne_of_lt hlt)⟩
    | proceed next =>
      rw [hdemand] at hstep
      cases hstep
      obtain ⟨hle, hreaches⟩ := ih hx
      refine ⟨hle, fun heq σ host s => ?_⟩
      have hnext : m.step host s = (.ok .proceed, m', s) := by
        rw [step_eq, hdemand]
        rfl
      exact (Reaches.of_step hnext).trans (hreaches heq host s)

end Machine

/-! ## Code without labels in between -/

namespace Item

/-- No label hangs between the words. -/
def Solid (items : List Item) : Prop :=
  ∀ x ∈ items, x.isCell = true

theorem solid_append {xs ys : List Item} : Solid (xs ++ ys) ↔ Solid xs ∧ Solid ys :=
  List.forall_mem_append

theorem solid_flatMap {β : Type} {f : β → List Item} {xs : List β} (h : ∀ x ∈ xs, Solid (f x)) :
    Solid (xs.flatMap f) := by
  intro y hy
  obtain ⟨x, hx, hy⟩ := List.mem_flatMap.1 hy
  exact h x hx y hy

/-- The items behind a label that hangs, with the label: the one with `n` hanging labels in front of it. -/
def behind? : Nat → List Item → Option (Label × List Item)
  | _, [] => none
  | n, .cell _ :: rest => behind? n rest
  | 0, .hanging l :: rest => some (l, rest)
  | n + 1, .hanging _ :: rest => behind? n rest

theorem behind?_append {xs : List Item} (h : Solid xs) (n : Nat) (ys : List Item) :
    behind? n (xs ++ ys) = behind? n ys := by
  induction xs with
  | nil => rfl
  | cons x xs ih =>
    cases x with
    | hanging l => exact absurd (h _ (.head _)) Bool.false_ne_true
    | cell c => exact (behind?.eq_2 ..).trans (ih fun y hy => h y (.tail _ hy))

end Item

open Item (Solid)

theorem Lowered.solid_instruction (op : Opcode) {ls : List Lowered} (h : ∀ l ∈ ls, Solid l.setup) :
    Solid (instruction op ls) := by
  refine Item.solid_append.2 ⟨Item.solid_flatMap h, fun x hx => ?_⟩
  rcases List.mem_cons.1 hx with rfl | hx
  · rfl
  · obtain ⟨l, -, rfl⟩ := List.mem_map.1 hx
    rfl

namespace Emit

theorem solid_copyForms {source target : Lowered} {items : List Item} (hs : Solid source.setup)
    (ht : Solid target.setup) (h : items ∈ copyForms source target) : Solid items := by
  have hnil : Solid [] := List.forall_mem_nil _
  simp only [copyForms, List.mem_cons, List.not_mem_nil, or_false] at h
  rcases h with rfl | rfl | rfl | rfl <;> exact Lowered.solid_instruction _ (by simp [Lowered.fixed, *])

namespace Emits

variable {t : ScopeTable} {site : Site} {items : List Item} {l : Lowered}

theorem solid_followParents {tag : Label} {n : Nat} (h : Emits t site (Emit.followParents tag n) items) :
    Solid items := by
  have hword : ∀ l : Label, Solid (Lowered.wordAt l).setup := fun _ => List.forall_mem_nil _
  induction n generalizing items with
  | zero =>
    rw [h.followParents_zero]
    exact List.forall_mem_nil _
  | succ n ih =>
    obtain ⟨up, load, code, more, hload, hcode, hmore, rfl⟩ := h.followParents_succ
    exact Item.solid_append.2 ⟨solid_copyForms (solid_copyForms (hword _) (hword _) hload) (hword _) hcode, ih hmore⟩

/-- The code of an operand is made of words only. -/
theorem solid_lower {o : Operand} (h : Emits t site (Emit.lower o) l) : Solid l.setup := by
  have hfixed : ∀ mode cell, Solid (Lowered.fixed mode cell).setup := fun _ _ => List.forall_mem_nil _
  induction o generalizing l with
  | const mode cell =>
    rw [Emits.pure h]
    exact hfixed _ _
  | offset base amount ihbase ihamount =>
    obtain ⟨lbase, hbase, h⟩ := bind (Moves.lower _) h
    obtain ⟨lamount, hamount, h⟩ := bind (Moves.lower _) h
    rcases h.offsetLowered with ⟨-, -, -, -, -, rfl⟩ | ⟨tag, rfl⟩
    · exact hfixed _ _
    · exact Lowered.solid_instruction _ (by simp [ihbase hbase, ihamount hamount, Lowered.wordAt, hfixed])
  | deref o ih =>
    obtain ⟨lo, ho, h⟩ := bind (Moves.lower _) h
    obtain ⟨-, tag, setup, hsetup, rfl⟩ := h.derefLowered
    exact solid_copyForms (ih ho) (hfixed _ _) hsetup
  | relabel mode o ih =>
    obtain ⟨lo, ho, h⟩ := bind (Moves.lower _) h
    obtain ⟨-, rfl⟩ := h.relabelLowered
    have hsetup : Solid lo.setup := ih ho
    exact hsetup
  | spill o ih =>
    obtain ⟨lo, ho, h⟩ := bind (Moves.lower _) h
    obtain ⟨-, tag, setup, hsetup, rfl⟩ := h.spillLowered
    exact solid_copyForms (ih ho) (hfixed _ _) hsetup
  | var name slot =>
    rcases varLowered h with ⟨_, _, -, rfl⟩ | ⟨_, _, tag, start, climb, add, store, -, hstart, hclimb, hstore, rfl⟩
    · exact hfixed _ _
    · have hadd : ∀ o : Lowered, Solid o.setup →
          Solid (Lowered.instruction .add [o, .wordAt tag, .wordAt add]) := fun o ho =>
        Lowered.solid_instruction .add (by simp [Lowered.wordAt, hfixed, ho])
      exact Item.solid_append.2 ⟨Item.solid_append.2 ⟨solid_copyForms (hfixed _ _) (hfixed _ _) hstart,
        hclimb.solid_followParents⟩, solid_copyForms (hadd _ (hfixed _ _)) (hfixed _ _) hstore⟩

theorem solid_instruction {op : Opcode} {os : List Operand} (h : Emits t site (Emit.instruction op os) items) :
    Solid items := by
  obtain ⟨ls, hls, rfl⟩ := h.instruction
  refine Lowered.solid_instruction op ?_
  clear h
  induction os generalizing ls with
  | nil =>
    obtain rfl := hls.lowerAll_nil
    exact List.forall_mem_nil _
  | cons o os ih =>
    obtain ⟨l, rest, hl, hrest, rfl⟩ := hls.lowerAll_cons
    exact List.forall_mem_cons.2 ⟨hl.solid_lower, ih rest hrest⟩

theorem solid_copy {source target : Operand} (h : Emits t site (Emit.copy source target) items) : Solid items := by
  obtain ⟨ls, lt, hls, hlt, hitems⟩ := h.copy
  exact solid_copyForms hls.solid_lower hlt.solid_lower hitems

theorem solid_jump {target : Operand} (h : Emits t site (Emit.jump target) items) : Solid items := by
  rcases h.jump with h | ⟨_, -, h⟩ <;> exact h.solid_instruction

theorem solid_writeToRam {value : Operand} (h : Emits t site (Emit.writeToRam value) items) : Solid items := by
  obtain ⟨first, rest, hfirst, hrest, rfl⟩ := concat_cons (.copy _ _) h
  obtain hadd | hadd := hrest.concat_last.addTo
  · exact Item.solid_append.2 ⟨hfirst.solid_copy, hadd.solid_instruction⟩
  · exact Item.solid_append.2 ⟨hfirst.solid_copy, hadd.solid_instruction⟩

/-! ## The levels of a built-in -/

variable {inner : Emit (List Item)} {outer : Nat} {entry : Label} {param : String}

/-- The last level is the body and the way back. -/
theorem levels_last (h : Emits t site (Builtin.levels inner outer entry param []) items) :
    ∃ code, items = .hanging entry :: code ∧
      Emits ((t.child outer).2.bind t.size param) site
        (Emit.concat [Emit.within ⟨t.size, .generated⟩ inner, Emit.jump (rel 1)]) code := by
  obtain ⟨first, code, hfirst, hcode, rfl⟩ := concat_cons (.placeLabel _) h.openScope.bindName
  obtain rfl := hfirst.placeLabel
  exact ⟨code, rfl, hcode⟩

/-- Any other level is words only, with the next level behind them. -/
theorem levels_cons {next : String} {rest : List String}
    (h : Emits t site (Builtin.levels inner outer entry param (next :: rest)) items) :
    ∃ below front code, items = .hanging entry :: (front ++ code) ∧ Solid front ∧
      Emits ((t.child outer).2.bind t.size param) site (Builtin.levels inner t.size below next rest) code := by
  obtain ⟨below, -, hlevel⟩ := h.openScope.bindName.bind (.fresh _)
  obtain ⟨_, _, hlabel, hcode, rfl⟩ := concat_cons (.placeLabel _) hlevel
  obtain ⟨copies, _, hcopies, hcode₁, rfl⟩ := concat_cons (.copy _ _) hcode
  obtain ⟨writes, _, hwrites, hcode₂, rfl⟩ := concat_cons (.writeToRam _) hcode₁
  obtain ⟨writes', _, hwrites', hcode₃, rfl⟩ := concat_cons (.writeToRam _) hcode₂
  obtain ⟨copies', _, hcopies', hcode₄, rfl⟩ := concat_cons (.copy _ _) hcode₃
  obtain ⟨back, code, hback, hlast, rfl⟩ := concat_cons (.jump _) hcode₄
  obtain rfl := hlabel.placeLabel
  refine ⟨below, copies ++ (writes ++ (writes' ++ (copies' ++ back))), code, by simp, ?_, hlast.concat_last⟩
  simp only [Item.solid_append]
  exact ⟨hcopies.solid_copy, hwrites.solid_writeToRam, hwrites'.solid_writeToRam, hcopies'.solid_copy,
    hback.solid_jump⟩

/-- The innermost level of a built-in with two parameters. -/
theorem exists_innermost {b : Builtin} {next : String} {location : Label} (hparams : b.params = [param, next])
    (h : Emits t site (b.code location) items) :
    ∃ front below code, items = front ++ .hanging below :: code ∧ Item.behind? 1 items = some (below, code) ∧
      Emits ((((t.child ScopeTable.builtins).2.bind t.size param).child t.size).2.bind (t.size + 1) next) site
        (Emit.concat [Emit.within ⟨t.size + 1, .generated⟩ b.body, Emit.jump (rel 1)]) code := by
  unfold Builtin.code at h
  rw [hparams] at h
  obtain ⟨entry, -, h⟩ := h.bind (.fresh _)
  obtain ⟨levels, hlevels, rfl⟩ := h.map
  obtain ⟨below, front, back, rfl, hfront, hback⟩ := hlevels.levels_cons
  obtain ⟨code, rfl, hcode⟩ := hback.levels_last
  rw [ScopeTable.size_bind, ScopeTable.size_child] at hcode
  refine ⟨.labeled (.addr entry) location :: .word (.addr .builtinScope) :: .hanging entry :: front, below, code,
    by simp, ?_, hcode⟩
  change Item.behind? 0 (front ++ .hanging below :: code) = _
  rw [Item.behind?_append hfront]
  rfl

end Emits

end Emit

/-- The scopes of two levels: the last argument is in the record of the inner one, the first one in that around it. -/
theorem ScopeTable.resolve_levels (t : ScopeTable) (outer : Nat) {first last : String} (hne : last ≠ first) :
    let t' := (((t.child outer).2.bind t.size first).child t.size).2.bind (t.size + 1) last
    t'.resolve (t.size + 1) last = some (.dynamic 0 0) ∧ t'.resolve (t.size + 1) first = some (.dynamic 1 0) := by
  intro t'
  have hsize : ((t.child outer).2.bind t.size first).size = t.size + 1 := by simp
  have hinner : t'.get (t.size + 1) = ⟨some t.size, none, [last]⟩ := by
    rw [get_bind_self _ _ (by simp), ← hsize, get_child_self]
    rfl
  have houter : t'.get t.size = ⟨some outer, none, [first]⟩ := by
    rw [get_bind_of_ne _ _ (by omega), get_child_of_lt _ (by omega), get_bind_self _ _ (by simp), get_child_self]
    rfl
  have hlast : (t'.get (t.size + 1)).names.idxOf? last = some 0 := by simp [hinner, List.idxOf?_cons]
  have hnone : (t'.get (t.size + 1)).names.idxOf? first = none := by simp [hinner, List.idxOf?_cons, hne]
  have hfirst : (t'.get t.size).names.idxOf? first = some 0 := by simp [houter, List.idxOf?_cons]
  have ht' : t'.size = t.size + 1 + 1 := by simp [t']
  rw [resolve, resolve, ht', resolveWithin_here hlast, resolveWithin_outer hnone (by rw [hinner]),
    resolveWithin_here hfirst, hinner, houter]
  exact ⟨rfl, rfl⟩

/-- Two stretches of words have no word in common. -/
def Apart (a n b k : Nat) : Prop :=
  a + n ≤ b ∨ b + k ≤ a

instance (a n b k : Nat) : Decidable (Apart a n b k) :=
  inferInstanceAs (Decidable (_ ∨ _))

/-! ## Where a level stands -/

section Middle

variable {before code after : List Item}

/-- A program of which only some words in the middle are looked at as code. -/
abbrev Use.middle (before code after : List Item) : List (Use × List Item) :=
  [(.data, before), (.code, code), (.data, after)]

theorem Use.cells_middle {use : Use} {a : Nat} {c : Cell} (h : (cells (middle before code after))[a]? = some (use, c))
    (huse : use ≠ .data) :
    use = .code ∧ ∃ i, a = Item.size before + i ∧ (Item.cells code)[i]? = some c := by
  have hcells : cells (middle before code after) = (Item.cells before).map (Use.data, ·) ++
      ((Item.cells code).map (Use.code, ·) ++ (Item.cells after).map (Use.data, ·)) := by
    simp [cells]
  have hdata : ∀ {cs : List Cell} {i : Nat}, (cs.map (Use.data, ·))[i]? ≠ some (use, c) := by
    intro cs i hi
    obtain ⟨c', -, hc'⟩ := List.mem_map.1 (List.mem_of_getElem? hi)
    exact huse (congrArg Prod.fst hc').symm
  rw [hcells, List.getElem?_append, List.length_map, Item.length_cells] at h
  split at h
  · exact (hdata h).elim
  · next hbefore =>
    rw [List.getElem?_append, List.length_map, Item.length_cells] at h
    split at h
    · rw [List.getElem?_map] at h
      obtain ⟨c', hc', heq⟩ := Option.map_eq_some_iff.1 h
      cases heq
      exact ⟨rfl, a - Item.size before, by omega, hc'⟩
    · exact (hdata h).elim

variable {asm : Assembly} {hsize : Item.size ((Use.middle before code after).flatMap Prod.snd) ≤ Memory.addressLimit}

/-- The words that never change are those of the code that carry no label. -/
theorem Assembly.exists_of_frozen_middle {x v : Int}
    (h : (asm.layout (Use.middle before code after) hsize).frozen x = some v) :
    ∃ i c, x = (Item.size before + i : Nat) ∧ (Item.cells code)[i]? = some c ∧ c.labels = [] ∧
      asm.words[Item.size before + i]? = some v := by
  cases x with
  | negSucc n => cases h
  | ofNat a =>
    change asm.frozenWord (Use.cells _) (.ofNat a) = some v at h
    simp only [frozenWord] at h
    split at h
    · next c hc =>
      obtain ⟨-, i, rfl, hi⟩ := Use.cells_middle hc nofun
      split at h
      · next hlabels => exact ⟨i, c, rfl, hi, hlabels, h⟩
      · cases h
    · next c hc => exact nomatch (Use.cells_middle hc nofun).1
    · cases h

/-- The words that code writes are those that carry a label. -/
theorem Assembly.exists_of_scratch_middle {x : Int}
    (h : (asm.layout (Use.middle before code after) hsize).scratch x) :
    ∃ i c, x = (Item.size before + i : Nat) ∧ (Item.cells code)[i]? = some c ∧ c.labels ≠ [] := by
  obtain ⟨a, c, rfl, hc, hlabels⟩ := h
  obtain ⟨-, i, rfl, hi⟩ := Use.cells_middle hc nofun
  exact ⟨i, c, rfl, hi, hlabels⟩

end Middle

namespace Compile

/-- The code of the innermost level of a built-in in a compiled program, with the label of its first word: each level
starts with a label that hangs, and there is no other one in front of the innermost level. -/
def innermost? (p : Program) (o : Options) (b : Builtin) : Option (Label × List Item) :=
  match (runDraft p o).1 with
  | .error _ => none
  | .ok d => (d.builtins.lookup b).bind (Item.behind? (b.params.length - 1))

/-- The innermost level of a built-in that is part of the program: it was written, and its label was linked to where it
stands. -/
theorem exists_linked {p : Program} {o : Options} {c : Compiled} (hc : program p o = .ok c) {b : Builtin}
    (hb : b ∈ c.builtins) {param next : String} (hparams : b.params = [param, next]) :
    ∃ (below : Label) (before code after : List Item) (t : ScopeTable) (site : Site),
      innermost? p o b = some (below, code) ∧
      c.assembly.address? below = some (Item.size before) ∧
      c.assembly.Holds 0 (before ++ (code ++ after)) ∧ c.words.length = Item.size (before ++ (code ++ after)) ∧
      (∀ {l : Label} {a : Nat}, c.assembly.addresses[l.index]? = some a → a < c.words.length) ∧
      Emits ((((t.child ScopeTable.builtins).2.bind t.size param).child t.size).2.bind (t.size + 1) next) site
        (concat [within ⟨t.size + 1, .generated⟩ b.body, jump (rel 1)]) code := by
  obtain ⟨d, s, hdraft, hlink, -, hbuiltins, -⟩ := exists_of_program hc
  obtain ⟨declared, start, main, allocate, hdeclared, ⟨-, -, -, hcode⟩, hitems⟩ := exists_of_runDraft hdraft
  obtain ⟨hholds, hlength, hlt⟩ := Assembly.link_holds hlink
  -- the built-in is among those that were written
  have hnames : declared.map Prod.fst = d.builtins.map Prod.fst := by
    have heq := List.forall₂_map_left_iff.2 (List.forall₂_map_right_iff.2 (hcode.imp fun _ _ hxy => hxy.1.symm))
    rwa [List.forall₂_eq_eq_eq] at heq
  rw [hbuiltins, ← hdeclared, hnames] at hb
  obtain ⟨y, hy, rfl⟩ := List.mem_map.1 hb
  obtain ⟨items, hlookup⟩ := Option.isSome_iff_exists.1 (List.lookup_isSome_iff.2 ⟨y, hy, beq_self_eq_true y.1⟩)
  obtain ⟨front, back, hsplit, -⟩ := List.lookup_eq_some_iff.1 hlookup
  obtain ⟨i, hi⟩ := List.mem_iff_get.1 (show (y.1, items) ∈ d.builtins by simp [hsplit])
  obtain ⟨hname, t, -, hemits⟩ := hcode.get (by rw [hcode.length_eq]; exact i.2) i.2
  rw [hi] at hname hemits
  rw [← hname] at hemits
  obtain ⟨first, below, code, rfl, hbehind, hlevel⟩ := hemits.exists_innermost hparams
  -- its items stand between those in front of it and those behind it
  obtain ⟨before, after, hparts⟩ : ∃ before after, d.items = before ++ .hanging below :: (code ++ after) := by
    refine ⟨start ++ main.inPlace ++ halt ++ allocate ++ front.flatMap (·.2) ++ first, ?_, ?_⟩
    rotate_left
    · rw [hitems, hsplit]
      simp only [List.flatMap_append, List.flatMap_cons, List.append_assoc, List.cons_append]
      rfl
  rw [hparts, Assembly.holds_append] at hholds
  obtain ⟨hbefore, haddress, hrest⟩ := hholds
  rw [Nat.zero_add] at haddress
  refine ⟨below, before, code, after, t, _, ?_, haddress, Assembly.holds_append.2 ⟨hbefore, hrest⟩, ?_, hlt,
    hlevel⟩
  · rw [innermost?, hdraft]
    simp only [hlookup, hparams]
    exact hbehind
  · refine hlength.trans ?_
    rw [hparts, Item.size_append, Item.size_append, Item.size_hanging]

/-- A machine that has just been sent to the innermost level of a built-in with two parameters: the code of the level is
in memory, slot 0 of the frame holds a record with the last argument, whose parent is a record with the first one, and
slot 1 the address to go back to. -/
structure Entered (c : Compiled) (entry : Nat) (code : List Item) (m : Machine)
    (frame record parent resume : Nat) (last first : Int) : Prop where
  ip : m.ip.toNat = entry
  base : m.base = frame
  /-- The words of the level are those of the image, except for those that it writes itself. -/
  loaded : ∀ {i cell}, (Item.cells code)[i]? = some cell → cell.labels = [] →
    c.words[entry + i]? = some (m.memory.get (entry + i))
  slot_record : m.memory.get frame = record
  slot_resume : m.memory.get (frame + 1) = resume
  record_parent : m.memory.get record = parent
  record_last : m.memory.get (record + 1) = last
  parent_first : m.memory.get (parent + 1) = first
  resume_lt : resume < Memory.addressLimit
  frame_fits : frame + 6 ≤ Memory.addressLimit
  record_fits : record + 2 ≤ Memory.addressLimit
  parent_fits : parent + 2 ≤ Memory.addressLimit
  frame_code : Apart frame 6 entry (Item.size code)
  record_code : Apart record 2 entry (Item.size code)
  parent_code : Apart parent 2 entry (Item.size code)
  frame_record : Apart frame 6 record 2
  frame_parent : Apart frame 6 parent 2

end Compile

/-- What a machine has in memory, before anything was read or written. -/
def Machine.data (m : Machine) : Data :=
  ⟨m.base, fun x => m.memory.get x.toNat, ⟨[], []⟩⟩

theorem Machine.matches_data (L : Layout) (m : Machine) : L.Matches (m.data.config m.ip.toNat) m :=
  ⟨UInt64.ofNat_toNat.symm, rfl, fun _ _ => rfl⟩

/-- The layout of a level in an image: the code writes those of its words that carry a label, and the others are as they
were linked. -/
structure Layout.Covers (L : Layout) (words : List Int) (entry : Nat) (code : List Item) : Prop where
  frozen : ∀ {x v : Int}, L.frozen x = some v → ∃ i cell, x = (entry + i : Nat) ∧
    (Item.cells code)[i]? = some cell ∧ cell.labels = [] ∧ words[entry + i]? = some v
  scratch : ∀ {x : Int}, L.scratch x → ∃ i cell, x = (entry + i : Nat) ∧ (Item.cells code)[i]? = some cell ∧
    cell.labels ≠ []

theorem Layout.covers_middle {asm : Assembly} {before code after : List Item}
    (hsize : Item.size ((Use.middle before code after).flatMap Prod.snd) ≤ Memory.addressLimit) :
    (asm.layout (Use.middle before code after) hsize).Covers asm.words (Item.size before) code :=
  ⟨Assembly.exists_of_frozen_middle, Assembly.exists_of_scratch_middle⟩

/-- What stands apart from the code is data. -/
theorem Layout.Covers.free {L : Layout} {words : List Int} {entry : Nat} {code : List Item}
    (hL : L.Covers words entry code) {b k a : Nat} (hfits : b + k ≤ Memory.addressLimit)
    (hapart : Apart b k entry (Item.size code)) (ha : b ≤ a) (hlt : a < b + k) : L.Free a ∧ L.frozen a = none := by
  unfold Apart at hapart
  have hsize : ∀ {i : Nat} {cell : Cell}, (Item.cells code)[i]? = some cell → i < Item.size code := by
    intro i cell hi
    rw [← Item.length_cells]
    exact (List.getElem?_eq_some_iff.1 hi).1
  refine ⟨⟨by omega, by omega, fun hs => ?_⟩, ?_⟩
  · obtain ⟨i, cell, heq, hi, -⟩ := hL.scratch hs
    have := hsize hi
    omega
  · rcases hx : L.frozen a with _ | v
    · rfl
    · obtain ⟨i, cell, heq, hi, -⟩ := hL.frozen hx
      have := hsize hi
      omega

namespace Compile.Entered

variable {c : Compiled} {entry : Nat} {code : List Item} {m : Machine} {frame record parent resume : Nat} {x y : Int}
  {L : Layout}

theorem loadedData (h : Entered c entry code m frame record parent resume x y) (hL : L.Covers c.words entry code) :
    L.Loaded m.data.mem := by
  intro z v hz
  obtain ⟨i, cell, rfl, hi, hlabels, hword⟩ := hL.frozen hz
  have hget := h.loaded hi hlabels
  rw [hword] at hget
  exact (Option.some.inj hget).symm

theorem roomy (h : Entered c entry code m frame record parent resume x y) (hL : L.Covers c.words entry code) :
    L.Roomy m.data.base := by
  have hslot : ∀ {k : Int}, 0 ≤ k → k < 6 → L.Free (m.base + k) ∧ L.frozen (m.base + k) = none := by
    intro k hk hlt
    lift k to Nat using hk
    rw [h.base, ← Int.natCast_add]
    exact hL.free h.frame_fits h.frame_code (by omega) (by omega)
  exact ⟨fun hk hlt => (hslot hk hlt).1, fun hk hlt => (hslot hk hlt).2⟩

/-- Words apart from the frame are not touched by the numbers of a division. -/
theorem mem_dividing (h : Entered c entry code m frame record parent resume x y) (w : Division) {b a : Nat}
    (hapart : Apart frame 6 b 2) (ha : b ≤ a) (hlt : a < b + 2) : (m.data.dividing w).mem a = m.memory.get a := by
  have hbase : m.data.base = frame := h.base
  unfold Apart at hapart
  exact Data.mem_dividing w (by omega)

/-- The pointer to the record is there all the time. -/
theorem reads_record (h : Entered c entry code m frame record parent resume x y) (hL : L.Covers c.words entry code)
    (w : Division) : L.Reads m.base (m.data.dividing w).mem .relative 0 record := by
  refine ⟨(h.roomy hL).free (by decide) (by decide), ?_⟩
  have hkept : (m.data.dividing w).mem m.base = m.data.mem m.base :=
    Data.mem_dividing w (.inl (Int.lt_add_of_pos_right m.base (by decide)))
  rw [Int.add_zero, hkept, h.base]
  exact h.slot_record

/-- Both arguments are found while the division works. -/
theorem yields_arguments (h : Entered c entry code m frame record parent resume x y)
    (hL : L.Covers c.words entry code) {t : ScopeTable} {scope : Nat} {last first : String}
    (hlast : t.resolve scope last = some (.dynamic 0 0)) (hfirst : t.resolve scope first = some (.dynamic 1 0))
    (w : Division) : Yields L t scope (m.data.dividing w) (slotOf last) x ∧
      Yields L t scope (m.data.dividing w) (slotOf first) y := by
  have hreads := h.reads_record hL w
  have hfree : ∀ a, record ≤ a → a < record + 2 → L.Free a :=
    fun a ha hlt => (hL.free h.record_fits h.record_code ha hlt).1
  have hrecord : (m.data.dividing w).mem record = parent :=
    (h.mem_dividing w h.frame_record (by omega) (by omega)).trans h.record_parent
  constructor
  · refine ⟨.position, _, .dynamic hlast hreads (.zero _), hfree (record + 1) (by omega) (by omega), ?_⟩
    change (m.data.dividing w).mem (record + 1 : Nat) = x
    exact (h.mem_dividing w h.frame_record (by omega) (by omega)).trans h.record_last
  · have hclimbs : Climbs L (m.data.dividing w).mem 1 record parent :=
      .succ (hfree record (by omega) (by omega)) (hrecord ▸ .zero _)
    refine ⟨.position, _, .dynamic hfirst hreads hclimbs,
      (hL.free h.parent_fits h.parent_code (a := parent + 1) (by omega) (by omega)).1, ?_⟩
    change (m.data.dividing w).mem (parent + 1 : Nat) = y
    exact (h.mem_dividing w h.frame_parent (by omega) (by omega)).trans h.parent_first

end Compile.Entered

namespace Compile

/-- The result of a division is the quotient or the remainder. -/
theorem exists_slot {b : Builtin} (h : b = .div ∨ b = .mod) (d : Data) (x y : Int) :
    ∃ result : Int, b.body = Builtin.longDivision result ∧ (0 ≤ result ∧ result < 6) ∧
      (d.dividing (.done x y)).mem (d.base + result) = if b = .div then x / y else x - y * (x / y) := by
  rcases h with rfl | rfl
  · exact ⟨4, rfl, by decide, d.mem_dividing_quotient _⟩
  · refine ⟨2, rfl, by decide, (d.mem_dividing_remainder _).trans ?_⟩
    exact Int.emod_def x y

/-- The inner level of a division, as far as a layout knows it, goes back with the result in slot 0. -/
theorem Entered.runs {c : Compiled} {entry a a' : Nat} {code : List Item} {m : Machine}
    {frame record parent resume : Nat} {x y : Int} {L : Layout} {t : ScopeTable} {scope : Nat} {site : Site}
    {b : Builtin} (h : Entered c entry code m frame record parent resume x y) (hL : L.Covers c.words entry code)
    (haddress : ∀ {l : Label} {z : Nat}, L.addresses[l.index]? = some z → z < Memory.addressLimit)
    (hlast : t.resolve scope "a" = some (.dynamic 0 0)) (hfirst : t.resolve scope "b" = some (.dynamic 1 0))
    (hdivision : b = .div ∨ b = .mod) (hx : 0 ≤ x) (hy : 0 < y)
    (hbody : Stands L t ⟨scope, .generated⟩ b.body entry a)
    (hback : Stands L t site (concat [jump (rel 1)]) a a') :
    L.Runs (m.data.config entry) (Data.config ⟨m.base, Function.update (m.data.dividing (.done x y)).mem m.base
      (if b = .div then x / y else x - y * (x / y)), m.data.queue⟩ resume) := by
  obtain ⟨result, hbodyEq, hresult, hvalue⟩ := exists_slot hdivision m.data x y
  generalize (if b = .div then x / y else x - y * (x / y)) = v at hvalue ⊢
  rw [hbodyEq] at hbody
  have hruns := longDivision_runs (h.loadedData hL) (h.roomy hL) haddress
    (fun w => (h.yields_arguments hL hlast hfirst w).1) (fun w => (h.yields_arguments hL hlast hfirst w).2) hx hy
    hresult hbody
  rw [hvalue] at hruns
  have hzero : L.frozen m.base = none := by
    have := (h.roomy hL).frozen (k := 0) (by decide) (by decide)
    rwa [Int.add_zero] at this
  have hloaded := ((h.loadedData hL).dividing (h.roomy hL) (.done x y)).update hzero v
  -- the address to go back to is still there
  have hresume : Function.update (m.data.dividing (.done x y)).mem m.base v (m.base + 1) = resume := by
    have hkept : (m.data.dividing (.done x y)).mem (m.base + 1) = m.data.mem (m.base + 1) :=
      Data.mem_dividing _ (.inl (Int.add_lt_add_left (by decide) m.base))
    rw [Function.update_of_ne (by omega), hkept, h.base]
    exact h.slot_resume
  have hslot : Yields L t site.scope ⟨m.base, Function.update (m.data.dividing (.done x y)).mem m.base v,
      m.data.queue⟩ (rel 1) resume := by
    have hfree : L.Free (m.base + 1) := (h.roomy hL).free (by decide) (by decide)
    rw [← hresume]
    exact (names_rel rfl hfree).yields
  exact hruns.trans ((Exits.last (.jump _) (exits_jump hloaded hslot h.resume_lt)).runs hback)

/-- Every compiled division divides: sent to its inner level with a dividend that is not negative and a divisor that is
positive, a machine comes to the address it was to go back to, with the quotient (or the remainder) in slot 0. It
asks no host for anything on the way, and no words change but the slots 0 and 2 to 5 and the labelled words of the
level's own code. -/
theorem program_divides {p : Program} {o : Options} {c : Compiled} (hc : program p o = .ok c)
    (hsize : c.words.length ≤ Memory.addressLimit) {b : Builtin} (hb : b ∈ c.builtins)
    (hdivision : b = .div ∨ b = .mod) :
    ∃ l code entry, innermost? p o b = some (l, code) ∧ c.assembly.address? l = some entry ∧
      ∀ {m : Machine} {frame record parent resume : Nat} {x y : Int},
        Entered c entry code m frame record parent resume x y → 0 ≤ x → 0 < y →
        ∃ m', (∀ {σ : Type} (host : Host σ) (s : σ), Machine.Reaches host (m, s) (m', s)) ∧ m'.ip.toNat = resume ∧
          m'.memory.get frame = (if b = .div then x / y else x - y * (x / y)) ∧ m'.base = m.base ∧
          ∀ a, a ≠ frame → ¬ Span (frame + 2) 4 a →
            (∀ i cell, (Item.cells code)[i]? = some cell → cell.labels ≠ [] → a ≠ entry + i) →
            m'.memory.get a = m.memory.get a := by
  have hparams : b.params = ["b", "a"] := by
    rcases hdivision with rfl | rfl <;> rfl
  obtain ⟨below, before, code, after, t, site, hinnermost, haddress, hholds, hlength, hlt, hlevel⟩ :=
    exists_linked hc hb hparams
  refine ⟨below, code, Item.size before, hinnermost, haddress, ?_⟩
  intro m frame record parent resume x y h hx hy
  -- only the level counts as code, everything around it as data
  have hitems : (Use.middle before code after).flatMap Prod.snd = before ++ (code ++ after) := by simp
  have hfits : Item.size ((Use.middle before code after).flatMap Prod.snd) ≤ Memory.addressLimit := by
    rw [hitems, ← hlength]
    exact hsize
  let L := c.assembly.layout (Use.middle before code after) hfits
  have hL : L.Covers c.words (Item.size before) code := covers_middle hfits
  have hcode : L.CodeAt (Item.size before) code := by
    have hsections : L.SectionsAt c.words 0 (Use.middle before code after) :=
      Assembly.sectionsAt_of_holds (hitems ▸ hholds)
    obtain ⟨-, hused, -⟩ := hsections
    rw [Nat.zero_add] at hused
    exact hused.codeAt
  have hstands : Stands L _ site _ (Item.size before) _ := ⟨code, hlevel, hcode, rfl⟩
  obtain ⟨a, hbody, hback⟩ := hstands.concat_cons (.within _ (.builtinBody b))
  obtain ⟨hlast, hfirst⟩ := t.resolve_levels ScopeTable.builtins (show "a" ≠ "b" by decide)
  have hruns := h.runs hL (fun hl => Nat.lt_of_lt_of_le (hlt hl) hsize) hlast hfirst hdivision hx hy hbody hback
  obtain ⟨m', hreaches, hm', -⟩ := hruns m (h.ip ▸ Machine.matches_data L m)
  refine ⟨m', (hreaches.of_empty rfl).2 rfl, Machine.toNat_ip hm'.ip h.resume_lt, ?_, hm'.base,
    fun z hz hspan hlabels => ?_⟩
  · have hfree := (hL.free h.frame_fits h.frame_code (Nat.le_refl _) (by omega)).1
    refine (hm'.shows frame hfree.2.2).trans ?_
    rw [← h.base]
    exact Function.update_self ..
  · have hscratch : ¬ L.scratch z := by
      intro hs
      obtain ⟨i, cell, heq, hi, hcell⟩ := hL.scratch hs
      exact hlabels i cell hi hcell (by exact_mod_cast heq)
    have hbase : m.data.base = frame := h.base
    unfold Span at hspan
    refine (hm'.shows z hscratch).trans ?_
    refine (Function.update_of_ne (by rw [h.base]; exact_mod_cast hz) ..).trans ?_
    exact Data.mem_dividing _ (by omega)

/-- A program that divides seven by two. -/
def halved : String :=
  "x = div 2 7"

/-- A machine about to divide seven by two in a frame at 9000, with records at 8000 and 8500. -/
def halving (c : Compiled) (entry : Nat) : Machine where
  ip := .ofNat entry
  base := 9000
  status := .running
  memory := (((((Memory.ofWords c.words).set 9000 8000).set 9001 77).set 8000 8500).set 8001 7).set 8501 2

theorem entered_halving {c : Compiled} {entry : Nat} {code : List Item} (hlength : c.words.length ≤ 5000)
    (hcode : entry + Item.size code ≤ c.words.length) :
    Entered c entry code (halving c entry) 9000 8000 8500 77 7 2 where
  ip := UInt64.toNat_ofNat_of_lt' (Nat.lt_of_le_of_lt (by omega : entry ≤ 5000) (by decide))
  base := rfl
  loaded {i cell} hi _ := by
    have hlt := (List.getElem?_eq_some_iff.1 hi).1
    rw [Item.length_cells] at hlt
    have hword : c.words[entry + i]? = some (c.words.get ⟨entry + i, by omega⟩) := List.getElem?_eq_getElem (by omega)
    rw [halving, Memory.get_set, if_neg (by omega), Memory.get_set, if_neg (by omega), Memory.get_set,
      if_neg (by omega), Memory.get_set, if_neg (by omega), Memory.get_set, if_neg (by omega), Memory.get_ofWords,
      hword]
    rfl
  slot_record := by simp [halving, Memory.get_set]
  slot_resume := by simp [halving, Memory.get_set]
  record_parent := by simp [halving, Memory.get_set]
  record_last := by simp [halving, Memory.get_set]
  parent_first := by simp [halving, Memory.get_set]
  resume_lt := by decide
  frame_fits := by decide
  record_fits := by decide
  parent_fits := by decide
  frame_code := .inr (by omega)
  record_code := .inr (by omega)
  parent_code := .inr (by omega)
  frame_record := by decide
  frame_parent := by decide

theorem program_divides_halving :
    ∃ p c l code entry m', Program.parse halved = .ok p ∧ program p ⟨some 7, 5000⟩ = .ok c ∧
      c.words.length ≤ Memory.addressLimit ∧ Builtin.div ∈ c.builtins ∧
      innermost? p ⟨some 7, 5000⟩ .div = some (l, code) ∧ c.assembly.address? l = some entry ∧
      Entered c entry code (halving c entry) 9000 8000 8500 77 7 2 ∧
      (∀ {σ : Type} (host : Host σ) (s : σ), Machine.Reaches host (halving c entry, s) (m', s)) ∧
      m'.ip.toNat = 77 ∧ m'.memory.get 9000 = 3 := by
  have h : (Program.parse halved).toOption.any (fun p => (program p ⟨some 7, 5000⟩).toOption.any fun c =>
      (innermost? p ⟨some 7, 5000⟩ .div).any fun (l, code) => (c.assembly.address? l).any fun entry =>
        decide (Builtin.div ∈ c.builtins ∧ c.words.length ≤ 5000 ∧ entry + Item.size code ≤ c.words.length)) =
      true := by decide +kernel
  obtain ⟨p, hparse, h⟩ := exists_ok_of_any h
  obtain ⟨c, hc, h⟩ := exists_ok_of_any h
  obtain ⟨⟨l, code⟩, hinnermost, h⟩ := (Option.any_eq_true ..).1 h
  obtain ⟨entry, haddress, h⟩ := (Option.any_eq_true ..).1 h
  obtain ⟨hdiv, hlength, hcode⟩ := of_decide_eq_true h
  have hsize : c.words.length ≤ Memory.addressLimit := Nat.le_trans hlength (by decide)
  have hentered := entered_halving hlength hcode
  obtain ⟨l', code', entry', hinnermost', haddress', hdivides⟩ := program_divides hc hsize hdiv (.inl rfl)
  cases hinnermost'.symm.trans hinnermost
  cases haddress'.symm.trans haddress
  obtain ⟨m', hreaches, hip, hslot, -⟩ := hdivides hentered (by decide) (by decide)
  exact ⟨p, c, l, code, entry, m', hparse, hc, hsize, hdiv, hinnermost, haddress, hentered, hreaches, hip, hslot⟩

end Compile

end Lamcode
