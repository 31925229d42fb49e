import Mathlib
import Lamcode.Proofs.Emit.Template
import Lamcode.Proofs.Machine.Reach

/-!
# Lamcode.Proofs.Emit.Frame — reading code from top to bottom

Code is a list of words. `Item.listing` reads it back as the instructions it holds, with the modes and words of their
operands. `Frame.read` then goes through them in the order in which they stand, jumps or not, and keeps track of what
they do to the frame: how far the base has been moved, and which slots have been written. It refuses code that moves
the base by anything but a number that stands there, or below the frame it was entered with; that stores below that
frame; and that loads a slot which neither holds the scope pointer nor was written before.

Slots are counted from the base with which the code is entered. The rules of the last part give one emitter at a time
what reading its code does to the frame.
-/

namespace Lamcode

/-! ## Listings -/

/-- One instruction of a listing. -/
structure Line where
  opcode : Opcode
  operands : List OperandWord

namespace Item

/-- The words of the next `n` items, and what follows them. -/
def takeCells : Nat → List Item → Option (List Cell × List Item)
  | 0, rest => some ([], rest)
  | n + 1, .cell c :: rest => (takeCells n rest).map fun (cells, rest) => (c :: cells, rest)
  | _ + 1, _ => none

theorem length_of_takeCells {n : Nat} {items rest : List Item} {cells : List Cell}
    (h : takeCells n items = some (cells, rest)) : rest.length ≤ items.length := by
  fun_induction takeCells n items generalizing cells with
  | case1 items =>
    cases h
    exact Nat.le_refl _
  | case2 n c items ih =>
    obtain ⟨⟨cells', rest'⟩, htake, heq⟩ := Option.map_eq_some_iff.1 h
    cases heq
    exact Nat.le_succ_of_le (ih htake)
  | case3 => cases h

/-- The instructions that items hold, or `none` if some word in the place of an instruction is none, or is not a number
that stands there. -/
def listing : List Item → Option (List Line)
  | [] => some []
  | .hanging _ :: rest => listing rest
  | .cell ⟨.num w, []⟩ :: rest =>
    match Instruction.decode w 0 with
    | .error _ => none
    | .ok i =>
      match _h : takeCells i.opcode.arity rest with
      | none => none
      | some (cells, rest) => (listing rest).map (⟨i.opcode, List.zipWith OperandWord.mk i.modes cells⟩ :: ·)
  | .cell _ :: _ => none
termination_by items => items.length
decreasing_by
  · exact Nat.lt_succ_self _
  · exact Nat.lt_succ_of_le (length_of_takeCells _h)

theorem takeCells_append {n : Nat} {xs rest : List Item} {cells : List Cell}
    (h : takeCells n xs = some (cells, rest)) (ys : List Item) :
    takeCells n (xs ++ ys) = some (cells, rest ++ ys) := by
  fun_induction takeCells n xs generalizing cells with
  | case1 xs =>
    cases h
    rfl
  | case2 n c xs ih =>
    obtain ⟨⟨cells', rest'⟩, htake, heq⟩ := Option.map_eq_some_iff.1 h
    cases heq
    rw [List.cons_append, takeCells, ih htake]
    rfl
  | case3 => cases h

theorem takeCells_map (cells : List Cell) (rest : List Item) :
    takeCells cells.length (cells.map .cell ++ rest) = some (cells, rest) := by
  induction cells with
  | nil => rfl
  | cons c cells ih =>
    rw [List.length_cons, List.map_cons, List.cons_append, takeCells, ih]
    rfl

/-- Code behind code is listed behind it. -/
theorem listing_append {xs : List Item} {lines : List Line} (h : listing xs = some lines) (ys : List Item) :
    listing (xs ++ ys) = (listing ys).map (lines ++ ·) := by
  fun_induction listing xs generalizing lines with
  | case1 =>
    cases h
    simp
  | case2 l xs ih =>
    rw [List.cons_append, listing]
    exact ih h
  | case3 | case4 | case6 => cases h
  | case5 w xs i hdecode cells rest htake ih =>
    obtain ⟨lines', hlines', rfl⟩ := Option.map_eq_some_iff.1 h
    rw [List.cons_append, listing, hdecode]
    simp only
    split
    · next hnone =>
      rw [takeCells_append htake] at hnone
      cases hnone
    · next cells' rest' hsome =>
      rw [takeCells_append htake] at hsome
      cases hsome
      rw [ih hlines', Option.map_map]
      rfl

/-- One instruction that is written is one line. -/
theorem listing_instruction {op : Opcode} {ws : List OperandWord} (harity : ws.length = op.arity) :
    listing (.word (.num (Instruction.encode op (ws.map OperandWord.mode))) :: ws.map fun w => .cell w.cell) =
      some [⟨op, ws⟩] := by
  have htake : takeCells op.arity (ws.map fun w => .cell w.cell) = some (ws.map OperandWord.cell, []) := by
    have := takeCells_map (ws.map OperandWord.cell) []
    rwa [List.length_map, harity, List.map_map, List.append_nil] at this
  have hzip : List.zipWith OperandWord.mk (ws.map OperandWord.mode) (ws.map OperandWord.cell) = ws := by
    rw [List.zipWith_map, List.zipWith_self, List.map_id'']
    exact fun _ => rfl
  rw [word, Cell.plain, listing, Instruction.decode_encode (by simpa using harity)]
  simp only
  split
  · next hnone =>
    rw [htake] at hnone
    cases hnone
  · next cells' rest' hsome =>
    rw [htake] at hsome
    cases hsome
    rw [listing, hzip]
    rfl

end Item

/-- An instruction whose operands need no code is one line. -/
theorem Lowered.listing_instruction {op : Opcode} (ws : List OperandWord) (harity : ws.length = op.arity) :
    Item.listing (instruction op (ws.map OperandWord.lowered)) = some [⟨op, ws⟩] := by
  have hsetup : (ws.map OperandWord.lowered).flatMap (·.setup) = [] := by
    simp [List.flatMap_map, OperandWord.lowered, fixed]
  rw [instruction, hsetup, List.map_map, List.map_map]
  exact Item.listing_instruction harity

/-! ## Frames -/

/-- The number that stands in a word, if no label stands for the word, so that nothing can write it. -/
def Cell.literal? : Cell → Option Int
  | ⟨.num n, []⟩ => some n
  | _ => none

/-- Whether the last operand of the operation is stored to. -/
def Opcode.hasTarget : Opcode → Bool
  | .add | .multiply | .lessThan | .equals | .read => true
  | .write | .jumpIfTrue | .jumpIfFalse | .adjustBase | .halt => false

namespace Line

/-- The operands that are loaded. -/
def sources (line : Line) : List OperandWord :=
  if line.opcode.hasTarget then line.operands.dropLast else line.operands

/-- The operand that is stored to. -/
def target? (line : Line) : Option OperandWord :=
  if line.opcode.hasTarget then line.operands.getLast? else none

end Line

/-- What code has done to the frame so far. -/
structure Frame where
  /-- The slots that hold something when the code is entered. -/
  given : List Int
  /-- How far the base was moved, last move first. -/
  moves : List Int
  /-- The slots that were written, last one first. -/
  stores : List Int
  deriving DecidableEq

namespace Frame

/-- The frame in front of all code. -/
def entry (given : List Int) : Frame :=
  ⟨given, [], []⟩

/-- How far the base is from where it was. -/
def depth (F : Frame) : Int :=
  F.moves.sum

/-- The frame once the base was moved. -/
def move (F : Frame) (n : Int) : Frame :=
  { F with moves := n :: F.moves }

/-- The frame once a slot was written. -/
def store (F : Frame) (slot : Int) : Frame :=
  { F with stores := slot :: F.stores }

/-- Whether the slot may be loaded: it holds the scope pointer, or something that is known to be there. -/
def Known (F : Frame) (slot : Int) : Prop :=
  slot = Operand.scopeSlot ∨ 0 ≤ slot ∧ (slot ∈ F.stores ∨ slot ∈ F.given)

instance (F : Frame) (slot : Int) : Decidable (F.Known slot) :=
  inferInstanceAs (Decidable (_ ∨ _))

/-- Whether the operand may be loaded. -/
def loads (F : Frame) (w : OperandWord) : Bool :=
  match w.mode with
  | .relative => w.cell.literal?.any fun n => F.Known (F.depth + n)
  | _ => true

/-- The frame once the operand was stored to. -/
def storeTo (F : Frame) (w : OperandWord) : Option Frame :=
  match w.mode with
  | .relative =>
    match w.cell.literal? with
    | some n => if 0 ≤ F.depth + n then some (F.store (F.depth + n)) else none
    | none => none
  | _ => some F

/-- The frame once the base was moved by the operand. -/
def moveBy (F : Frame) (w : OperandWord) : Option Frame :=
  match w.mode, w.cell.literal? with
  | .immediate, some n => if 0 ≤ F.depth + n then some (F.move n) else none
  | _, _ => none

/-- The frame behind one instruction. -/
def step (F : Frame) (line : Line) : Option Frame :=
  match line.opcode, line.operands with
  | .adjustBase, [w] => F.moveBy w
  | .adjustBase, _ => none
  | _, _ =>
    if line.sources.all F.loads then
      match line.target? with
      | none => some F
      | some w => F.storeTo w
    else none

/-- The frame behind all instructions. -/
def run (F : Frame) : List Line → Option Frame
  | [] => some F
  | line :: rest => (F.step line).bind fun G => G.run rest

/-- The frame behind code. -/
def read (F : Frame) (items : List Item) : Option Frame :=
  (Item.listing items).bind F.run

variable {F G : Frame} {xs ys : List Item} {n x : Int}

@[simp, grind =] theorem depth_move : (F.move n).depth = F.depth + n := by
  simp [depth, move, Int.add_comm]

@[simp, grind =] theorem depth_store : (F.store x).depth = F.depth := rfl

@[simp, grind =] theorem known_move : (F.move n).Known x ↔ F.Known x := Iff.rfl

@[grind =] theorem known_store {y : Int} : (F.store y).Known x ↔ F.Known x ∨ 0 ≤ x ∧ x = y := by
  simp only [Known, store, List.mem_cons]
  tauto

theorem run_append (lines lines' : List Line) :
    F.run (lines ++ lines') = (F.run lines).bind fun G => G.run lines' := by
  induction lines generalizing F with
  | nil => rfl
  | cons line lines ih =>
    rw [List.cons_append, run, run]
    cases F.step line with
    | none => rfl
    | some G => exact ih

theorem exists_listing_of_read (h : F.read xs = some G) :
    ∃ lines, Item.listing xs = some lines ∧ F.run lines = some G :=
  Option.bind_eq_some_iff.1 h

theorem read_nil : F.read [] = some F := by
  rw [read, Item.listing]
  rfl

theorem read_append (h : F.read xs = some G) (ys : List Item) : F.read (xs ++ ys) = G.read ys := by
  obtain ⟨lines, hlines, hrun⟩ := exists_listing_of_read h
  rw [read, Item.listing_append hlines, read]
  cases Item.listing ys with
  | none => rfl
  | some lines' =>
    rw [Option.map_some, Option.bind_some, run_append, hrun]
    rfl

theorem read_hanging (l : Label) : F.read (.hanging l :: xs) = F.read xs := by
  rw [read, Item.listing]
  rfl

/-- An instruction is read once the code of its operands was, which leaves the frame as it is. -/
theorem read_instruction {op : Opcode} {ls : List Lowered} (harity : ls.length = op.arity)
    (hsetup : ∀ l ∈ ls, F.read l.setup = some F) :
    F.read (Lowered.instruction op ls) = F.step ⟨op, ls.map Lowered.word⟩ := by
  have hall : F.read (ls.flatMap (·.setup)) = some F := by
    clear harity
    induction ls with
    | nil => exact read_nil
    | cons l ls ih =>
      rw [List.flatMap_cons, read_append (hsetup l (.head _))]
      exact ih fun l' hl' => hsetup l' (.tail _ hl')
  have hline := Item.listing_instruction (show (ls.map Lowered.word).length = op.arity by simpa using harity)
  rw [List.map_map, List.map_map] at hline
  rw [Lowered.instruction, read_append hall, read]
  refine (congrArg (Option.bind · F.run) hline).trans ?_
  rw [Option.bind_some, run]
  cases F.step _ <;> rfl

/-! ### Steps -/

theorem loads_of_mode {w : OperandWord} (h : w.mode ≠ .relative) : F.loads w = true := by
  unfold loads
  split
  · next hmode => exact absurd hmode h
  · rfl

theorem storeTo_of_mode {w : OperandWord} (h : w.mode ≠ .relative) : F.storeTo w = some F := by
  unfold storeTo
  split
  · next hmode => exact absurd hmode h
  · rfl

theorem storeTo_rel (h : 0 ≤ F.depth + n) :
    F.storeTo (.plain .relative (.num n)) = some (F.store (F.depth + n)) :=
  if_pos h

theorem step_target {op : Opcode} {a b w : OperandWord} (hop : op.hasTarget = true) (ha : F.loads a = true)
    (hb : F.loads b = true) : F.step ⟨op, [a, b, w]⟩ = F.storeTo w := by
  cases op with
  | write | jumpIfTrue | jumpIfFalse | adjustBase | halt => cases hop
  | add | multiply | lessThan | equals | read =>
    simp [step, Line.sources, Line.target?, Opcode.hasTarget, ha, hb]

theorem step_no_target {op : Opcode} {ws : List OperandWord} (hop : op.hasTarget = false) (hmove : op ≠ .adjustBase)
    (hws : ∀ w ∈ ws, F.loads w = true) : F.step ⟨op, ws⟩ = some F := by
  cases op with
  | add | multiply | lessThan | equals | read => cases hop
  | adjustBase => exact absurd rfl hmove
  | write | jumpIfTrue | jumpIfFalse | halt =>
    simpa [step, Line.sources, Line.target?, Opcode.hasTarget] using hws

end Frame

/-! ## Operands -/

namespace Operand

/-- The mode of the operand's word. -/
def mode : Operand → Mode
  | .const mode _ => mode
  | .offset base _ => base.mode
  | .deref _ => .immediate
  | .relabel mode _ => mode
  | .spill _ => .position
  | .var _ _ => .position

/-- What is loaded for the operand may be loaded. -/
def Safe (F : Frame) : Operand → Prop
  | .const mode cell => F.loads ⟨mode, cell⟩ = true
  | .offset base amount => base.mode ≠ .relative ∧ base.Safe F ∧ amount.Safe F
  | .deref pointer => pointer.Safe F
  | .relabel mode o => mode ≠ .relative ∧ o.Safe F
  | .spill slot => slot.Safe F
  | .var _ scopeSlot => F.Known (F.depth + scopeSlot)

variable {F : Frame}

@[simp] theorem safe_rel {n : Int} : (rel n).Safe F ↔ F.Known (F.depth + n) := by
  simp [Safe, rel, Frame.loads, Cell.plain, Cell.literal?]

@[simp] theorem safe_imm (w : Word) : (imm w).Safe F := rfl

@[simp] theorem safe_int (n : Int) : (int n).Safe F := rfl

@[simp] theorem safe_addressOf (l : Label) : (addressOf l).Safe F := rfl

@[simp] theorem safe_wordAt (l : Label) : (wordAt l).Safe F := rfl

@[simp] theorem safe_patched (l : Label) : (patched .immediate l).Safe F := rfl

end Operand

/-- The code of the operand leaves the frame as it is, and its word may be loaded then. -/
structure Lowered.Safe (F : Frame) (l : Lowered) : Prop where
  setup : F.read l.setup = some F
  loads : F.loads l.word = true

namespace Frame

open Emit

variable {F G H : Frame} {t : ScopeTable} {site : Site} {l : Lowered} {items : List Item}

theorem safe_fixed {mode : Mode} {cell : Cell} (h : F.loads ⟨mode, cell⟩ = true) :
    (Lowered.fixed mode cell).Safe F :=
  ⟨read_nil, h⟩

theorem safe_wordAt (tag : Label) : (Lowered.wordAt tag).Safe F :=
  safe_fixed rfl

theorem safe_num (n : Int) : (Lowered.fixed .immediate (.plain (.num n))).Safe F :=
  safe_fixed rfl

/-- An operand word that its own code writes. -/
theorem safe_written (mode : Mode) (hmode : mode ≠ .relative) (tag : Label) (h : F.read items = some F) :
    (Lowered.written mode tag items).Safe F :=
  ⟨h, loads_of_mode hmode⟩

/-- An instruction with a target stores to it. -/
theorem read_store (op : Opcode) {a b w : Lowered} (hop : op.hasTarget = true) (harity : op.arity = 3)
    (ha : a.Safe F) (hb : b.Safe F) (hw : F.read w.setup = some F) :
    F.read (Lowered.instruction op [a, b, w]) = F.storeTo w.word := by
  have hlength : [a, b, w].length = op.arity := harity.symm
  have hsetup : ∀ l ∈ [a, b, w], F.read l.setup = some F := by
    simpa using ⟨ha.setup, hb.setup, hw⟩
  rw [read_instruction hlength hsetup]
  exact step_target hop ha.loads hb.loads

theorem read_copyForms {source target : Lowered} (hsource : source.Safe F)
    (htarget : F.read target.setup = some F) (h : items ∈ copyForms source target) :
    F.read items = F.storeTo target.word := by
  simp only [copyForms, List.mem_cons, List.not_mem_nil, or_false] at h
  rcases h with rfl | rfl | rfl | rfl
  · exact read_store .add rfl rfl hsource (safe_num 0) htarget
  · exact read_store .add rfl rfl (safe_num 0) hsource htarget
  · exact read_store .multiply rfl rfl hsource (safe_num 1) htarget
  · exact read_store .multiply rfl rfl (safe_num 1) hsource htarget

/-- A word in the code is no slot of the frame. -/
theorem read_copy_wordAt {source : Lowered} {tag : Label} (hsource : source.Safe F)
    (h : items ∈ copyForms source (.wordAt tag)) : F.read items = some F :=
  read_copyForms hsource (safe_wordAt tag).setup h

theorem read_followParents {tag : Label} {n : Nat} (h : Emits t site (followParents tag n) items) :
    F.read items = some F := by
  induction n generalizing items with
  | zero =>
    obtain rfl := h.followParents_zero
    exact read_nil
  | succ n ih =>
    obtain ⟨up, load, code, more, hload, hcode, hmore, rfl⟩ := h.followParents_succ
    have hup := safe_written .position nofun up (read_copy_wordAt (F := F) (safe_wordAt tag) hload)
    rw [read_append (read_copy_wordAt hup hcode)]
    exact ih hmore

theorem safe_varLowered {name : String} {slot : Int} (hslot : F.Known (F.depth + slot))
    (h : Emits t site (varLowered name slot) l) : l.Safe F ∧ l.mode = .position := by
  rcases h.varLowered with ⟨location, offset, -, rfl⟩ |
    ⟨levelsUp, offset, tag, start, climb, add, store, -, hstart, hclimb, hstore, rfl⟩
  · exact ⟨safe_fixed rfl, rfl⟩
  · have hstartRead : F.read start = some F :=
      read_copy_wordAt (safe_fixed (Operand.safe_rel.2 hslot)) hstart
    have hadd := safe_written .immediate nofun add
      (read_store (F := F) .add rfl rfl (safe_num (Heap.recordHeader + offset : Nat)) (safe_wordAt tag)
        (safe_wordAt add).setup)
    refine ⟨safe_written .position nofun tag ?_, rfl⟩
    rw [List.append_assoc, read_append hstartRead, read_append (read_followParents hclimb)]
    exact read_copy_wordAt hadd hstore

/-- An operand that may be loaded is lowered to one that may be. -/
theorem safe_lower {o : Operand} (hsafe : o.Safe F) (h : Emits t site (lower o) l) :
    l.Safe F ∧ l.mode = o.mode := by
  induction o generalizing l with
  | const mode cell =>
    rw [lower] at h
    obtain rfl := h.pure
    exact ⟨safe_fixed hsafe, rfl⟩
  | offset base amount ihbase ihamount =>
    obtain ⟨hmode, hbase, hamount⟩ := hsafe
    obtain ⟨lbase, hlbase, h⟩ := h.bind (.lower _)
    obtain ⟨lamount, hlamount, h⟩ := h.bind (.lower _)
    obtain ⟨hb, hbmode⟩ := ihbase hbase hlbase
    obtain ⟨ha, -⟩ := ihamount hamount hlamount
    have hmode : lbase.mode ≠ .relative := hbmode ▸ hmode
    rcases h.offsetLowered with ⟨-, -, -, -, -, rfl⟩ | ⟨tag, rfl⟩
    · exact ⟨safe_fixed (loads_of_mode hmode), hbmode⟩
    · have himm : Lowered.Safe F { lbase with mode := .immediate } := ⟨hb.setup, rfl⟩
      exact ⟨safe_written _ hmode tag (read_store .add rfl rfl himm ha (safe_wordAt tag).setup), hbmode⟩
  | deref o ih =>
    obtain ⟨lo, hlo, h⟩ := h.bind (.lower _)
    obtain ⟨-, tag, setup, hsetup, rfl⟩ := h.derefLowered
    exact ⟨safe_written .immediate nofun tag (read_copy_wordAt (ih hsafe hlo).1 hsetup), rfl⟩
  | relabel mode o ih =>
    obtain ⟨hmode, hsafe⟩ := hsafe
    obtain ⟨lo, hlo, h⟩ := h.bind (.lower _)
    obtain ⟨-, rfl⟩ := h.relabelLowered
    exact ⟨⟨(ih hsafe hlo).1.setup, loads_of_mode hmode⟩, rfl⟩
  | spill o ih =>
    obtain ⟨lo, hlo, h⟩ := h.bind (.lower _)
    obtain ⟨-, tag, setup, hsetup, rfl⟩ := h.spillLowered
    exact ⟨safe_written .position nofun tag (read_copy_wordAt (ih hsafe hlo).1 hsetup), rfl⟩
  | var name slot => exact safe_varLowered hsafe h

theorem safe_lowerAll {os : List Operand} {ls : List Lowered} (hos : ∀ o ∈ os, o.Safe F)
    (h : Emits t site (lowerAll os) ls) : ls.length = os.length ∧ ∀ l ∈ ls, l.Safe F := by
  induction os generalizing ls with
  | nil =>
    obtain rfl := h.lowerAll_nil
    exact ⟨rfl, nofun⟩
  | cons o os ih =>
    obtain ⟨l, rest, hl, hrest, rfl⟩ := h.lowerAll_cons
    obtain ⟨hlength, hsafe⟩ := ih (fun o' ho' => hos o' (.tail _ ho')) hrest
    refine ⟨congrArg (· + 1) hlength, ?_⟩
    rw [List.forall_mem_cons]
    exact ⟨(safe_lower (hos o (.head _)) hl).1, hsafe⟩

/-! ## Emitters -/

/-- Reading what the computation writes leads from one frame to the other. -/
def Passes (F : Frame) (e : Emit (List Item)) (G : Frame) : Prop :=
  ∀ ⦃t : ScopeTable⦄ ⦃site : Site⦄ ⦃items : List Item⦄, Emits t site e items → F.read items = some G

/-- Storing to the operand leads from one frame to the other. -/
def Settles (F : Frame) (o : Operand) (G : Frame) : Prop :=
  ∀ ⦃t : ScopeTable⦄ ⦃site : Site⦄ ⦃l : Lowered⦄, Emits t site (lower o) l →
    F.read l.setup = some F ∧ F.storeTo l.word = some G

theorem settles_rel {n slot : Int} (hslot : F.depth + n = slot) (h : 0 ≤ slot) :
    F.Settles (.rel n) (F.store slot) := by
  subst hslot
  intro t site l hl
  rw [Operand.rel, lower] at hl
  obtain rfl := hl.pure
  exact ⟨read_nil, storeTo_rel h⟩

theorem settles_of_mode {o : Operand} (hsafe : o.Safe F) (hmode : o.mode ≠ .relative) : F.Settles o F := by
  intro t site l hl
  obtain ⟨hl, hlmode⟩ := safe_lower hsafe hl
  have hword : l.word.mode ≠ .relative := fun h => hmode (hlmode.symm.trans h)
  exact ⟨hl.setup, storeTo_of_mode hword⟩

namespace Passes

theorem nil : F.Passes (concat []) F := by
  intro t site items h
  obtain rfl := h.concat_nil
  exact read_nil

theorem cons {e : Emit (List Item)} {es : List (Emit (List Item))} (hsteady : Steady e) (h : F.Passes e G)
    (k : G.Passes (concat es) H) : F.Passes (concat (e :: es)) H := by
  intro t site items hitems
  obtain ⟨first, rest, hfirst, hrest, rfl⟩ := hitems.concat_cons hsteady
  rw [read_append (h hfirst)]
  exact k hrest

theorem within {e : Emit (List Item)} {site : Site} (h : F.Passes e G) : F.Passes (within site e) G :=
  fun _ _ _ hitems => h hitems.within

theorem placeLabel (l : Label) : F.Passes (placeLabel l) F := by
  intro t site items h
  obtain rfl := h.placeLabel
  rw [read_hanging]
  exact read_nil

theorem copy {source target : Operand} (hsource : source.Safe F) (htarget : F.Settles target G) :
    F.Passes (copy source target) G := by
  intro t site items h
  obtain ⟨ls, lt, hls, hlt, hitems⟩ := h.copy
  obtain ⟨hsetup, hstore⟩ := htarget hlt
  exact (read_copyForms (safe_lower hsource hls).1 hsetup hitems).trans hstore

/-- An instruction with two sources and a target. -/
theorem store {op : Opcode} {a b target : Operand} (hop : op.hasTarget = true) (harity : op.arity = 3)
    (ha : a.Safe F) (hb : b.Safe F) (htarget : F.Settles target G) :
    F.Passes (instruction op [a, b, target]) G := by
  intro t site items h
  obtain ⟨_, hls, rfl⟩ := h.instruction
  obtain ⟨la, _, hla, hbs, rfl⟩ := hls.lowerAll_cons
  obtain ⟨lb, _, hlb, hts, rfl⟩ := hbs.lowerAll_cons
  obtain ⟨lt, _, hlt, hnil, rfl⟩ := hts.lowerAll_cons
  obtain rfl := hnil.lowerAll_nil
  obtain ⟨hsetup, hstore⟩ := htarget hlt
  exact (read_store op hop harity (safe_lower ha hla).1 (safe_lower hb hlb).1 hsetup).trans hstore

theorem readTo {target : Operand} (htarget : F.Settles target G) : F.Passes (readTo target) G := by
  intro t site items h
  obtain ⟨_, hls, rfl⟩ := Emits.instruction h
  obtain ⟨l, _, hl, hnil, rfl⟩ := hls.lowerAll_cons
  obtain rfl := hnil.lowerAll_nil
  obtain ⟨hsetup, hstore⟩ := htarget hl
  rw [read_instruction rfl (by simpa using hsetup)]
  exact hstore

theorem addTo {amount out : Operand} (hamount : amount.Safe F) (hout : out.Safe F) (hstore : F.Settles out G) :
    F.Passes (addTo amount out) G := by
  intro t site items h
  rcases h.addTo with h | h
  · exact store rfl rfl hout hamount hstore h
  · exact store rfl rfl hamount hout hstore h

theorem moveStack {n : Int} (h : 0 ≤ F.depth + n) : F.Passes (moveStack n) (F.move n) := by
  intro t site items hitems
  obtain ⟨_, hls, rfl⟩ := Emits.instruction hitems
  obtain ⟨l, _, hl, hnil, rfl⟩ := hls.lowerAll_cons
  obtain rfl := hnil.lowerAll_nil
  rw [Operand.int, Operand.imm, lower] at hl
  obtain rfl := hl.pure
  rw [read_instruction rfl (by simpa [Lowered.fixed] using read_nil)]
  exact if_pos h

/-- An instruction that only loads. -/
theorem load (op : Opcode) {os : List Operand} (hop : op.hasTarget = false) (hmove : op ≠ .adjustBase)
    (harity : os.length = op.arity) (hos : ∀ o ∈ os, o.Safe F) : F.Passes (instruction op os) F := by
  intro t site items h
  obtain ⟨ls, hls, rfl⟩ := h.instruction
  obtain ⟨hlength, hsafe⟩ := safe_lowerAll hos hls
  rw [read_instruction (hlength.trans harity) fun l hl => (hsafe l hl).setup]
  exact step_no_target hop hmove (by simpa using fun l hl => (hsafe l hl).loads)

theorem jump {target : Operand} (htarget : target.Safe F) : F.Passes (jump target) F := by
  intro t site items h
  have hboth (n : Int) : ∀ o ∈ [Operand.int n, target], o.Safe F := by simpa using htarget
  rcases h.jump with h | ⟨n, -, h⟩
  · exact load .jumpIfFalse rfl nofun rfl (hboth 0) h
  · exact load .jumpIfTrue rfl nofun rfl (hboth n) h

theorem writeToRam {value : Operand} (hvalue : value.Safe F) : F.Passes (writeToRam value) F := by
  have hcell : (Operand.deref (.wordAt .ramPointer)).toPointer.Safe F := ⟨nofun, rfl⟩
  have hstore : F.Passes (Emit.copy value (Operand.deref (.wordAt .ramPointer)).toPointer) F :=
    copy hvalue (settles_of_mode hcell nofun)
  have hadvance : F.Passes (Emit.addTo (.int 1) (.wordAt .ramPointer)) F :=
    addTo rfl rfl (settles_of_mode rfl nofun)
  exact cons (.copy _ _) hstore (cons (.addTo _ _) hadvance nil)

end Passes

end Frame

end Lamcode
