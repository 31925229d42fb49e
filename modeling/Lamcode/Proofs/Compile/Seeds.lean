import Lamcode.Proofs.Compile.Bound
import Lamcode.Proofs.Link.Sections
import Lamcode.Proofs.Link.Variant
import Lamcode.Proofs.Machine.Reach

/-!
# Lamcode.Proofs.Compile.Seeds — what a seed can change

A seed chooses between encodings of one operation, and all of them do the same (`Operation.Form.step_eq`): they read
the same operands, store the same value at the same address or go to the same place. Two images of one program
therefore have the same words and labels at the same addresses, up to the encodings themselves and to what follows
from a copy whose source is its first operand in one image and its second one in the other (`program_alike`).
-/

namespace Lamcode

/-! ## Encodings have one effect -/

/-- The machine is at an instruction whose words are those of the items. What the words of labelled cells are is left
open: the program may have changed them. -/
structure Machine.At (m : Machine) (value : Cell → Int) (items : List Item) : Prop where
  number : ∀ n, value (.plain (.num n)) = n
  word : ∀ {i : Nat} {c : Cell}, (Item.cells items)[i]? = some c →
    m.memory.get (m.ip + .ofNat i).toNat = value c

namespace Machine.At

variable {m : Machine} {value : Cell → Int} {op : Opcode} {ws : List OperandWord}

theorem cells_instruction (op : Opcode) (ws : List OperandWord) :
    Item.cells (Lowered.instruction op (ws.map OperandWord.lowered)) =
      .plain (.num (Instruction.encode op (ws.map OperandWord.mode))) :: ws.map OperandWord.cell := by
  simp [Item.cells, Lowered.instruction, OperandWord.lowered, Lowered.fixed, Item.word, Function.comp_def,
    List.filterMap_map, List.flatMap_map]

theorem opcode (h : m.At value (Lowered.instruction op (ws.map OperandWord.lowered))) :
    m.memory.get m.ip.toNat = Instruction.encode op (ws.map OperandWord.mode) := by
  have := h.word (i := 0) (c := .plain (.num (Instruction.encode op (ws.map OperandWord.mode))))
    (by rw [cells_instruction]; rfl)
  rwa [h.number, show m.ip + .ofNat 0 = m.ip from UInt64.add_zero m.ip] at this

theorem operand (h : m.At value (Lowered.instruction op (ws.map OperandWord.lowered))) {i : Nat} {w : OperandWord}
    (hw : ws[i]? = some w) : m.operand i = value w.cell := by
  have hcell : (Item.cells (Lowered.instruction op (ws.map OperandWord.lowered)))[i + 1]? = some w.cell := by
    rw [cells_instruction, List.getElem?_cons_succ, List.getElem?_map, hw]
    rfl
  have hadd : m.ip + 1 + .ofNat i = m.ip + .ofNat (i + 1) := by
    rw [Nat.add_comm, UInt64.ofNat_add, ← UInt64.add_assoc]
    rfl
  rw [Machine.operand, hadd]
  exact h.word hcell

end Machine.At

/-- What an operation does to a machine whose operands have addresses. -/
inductive Operation.Effect (value : Cell → Int) (m : Machine) : Operation → Machine → Prop
  | copy {source target : OperandWord} {v : Int} {a : Nat} : m.Loads source.mode (value source.cell) v →
    m.Targets target.mode (value target.cell) a →
    Effect value m (.copy source target) { m with memory := m.memory.set a v, ip := m.ip + 4 }
  | addTo {amountMode outMode : Mode} {amount out : Word} {v : Int} {a : Nat} :
    m.Loads amountMode (value (.plain amount)) v → m.Targets outMode (value (.plain out)) a →
    Effect value m (.addTo amountMode amount outMode out)
      { m with memory := m.memory.set a (m.memory.get a + v), ip := m.ip + 4 }
  | jump {target : OperandWord} {a : Nat} : m.Loads target.mode (value target.cell) a →
    a < Memory.addressLimit → Effect value m (.jump target) { m with ip := .ofNat a }

theorem Machine.Targets.loads {m : Machine} {mode : Mode} {raw : Int} {a : Nat} (h : m.Targets mode raw a) :
    m.Loads mode raw (m.memory.get a) := by
  cases mode with
  | position | relative => exact ⟨a, h.1, h.2, rfl⟩
  | immediate => exact h.elim

namespace Operation.Form

variable {σ : Type} {host : Host σ} {s : σ} {m m' : Machine} {value : Cell → Int} {op : Operation}
  {form : List Item}

section

variable {code : Opcode} {f : Int → Int → Int} {source target : OperandWord} {v n : Int} {a : Nat}
  (hf : code.binary? = some f) (hsource : m.Loads source.mode (value source.cell) v)
  (htarget : m.Targets target.mode (value target.cell) a)
include hf hsource htarget

/-- An operation with a number on its right that leaves the value on its left as it is. -/
theorem step_neutral_right (hn : f v n = v)
    (hat : m.At value (Lowered.instruction code
      ([source, .plain .immediate (.num n), target].map OperandWord.lowered))) :
    m.step host s = (.ok .proceed, { m with memory := m.memory.set a v, ip := m.ip + 4 }, s) := by
  rw [← hn]
  refine Machine.step_binary hf hat.opcode ?_ ((hat.operand (i := 1) rfl).trans (hat.number n)) ?_
  · rw [hat.operand (i := 0) rfl]
    exact hsource
  · rw [hat.operand (i := 2) rfl]
    exact htarget

/-- An operation with a number on its left that leaves the value on its right as it is. -/
theorem step_neutral_left (hn : f n v = v)
    (hat : m.At value (Lowered.instruction code
      ([.plain .immediate (.num n), source, target].map OperandWord.lowered))) :
    m.step host s = (.ok .proceed, { m with memory := m.memory.set a v, ip := m.ip + 4 }, s) := by
  rw [← hn]
  refine Machine.step_binary hf hat.opcode ((hat.operand (i := 0) rfl).trans (hat.number n)) ?_ ?_
  · rw [hat.operand (i := 1) rfl]
    exact hsource
  · rw [hat.operand (i := 2) rfl]
    exact htarget

end

/-- A copy adds zero or multiplies by one, on either side. -/
theorem step_copy {source target : OperandWord} {v : Int} {a : Nat}
    (hform : form ∈ Emit.copyForms source.lowered target.lowered) (hat : m.At value form)
    (hsource : m.Loads source.mode (value source.cell) v) (htarget : m.Targets target.mode (value target.cell) a) :
    m.step host s = (.ok .proceed, { m with memory := m.memory.set a v, ip := m.ip + 4 }, s) := by
  simp only [Emit.copyForms, List.mem_cons, List.not_mem_nil, or_false] at hform
  rcases hform with rfl | rfl | rfl | rfl
  · exact step_neutral_right (n := 0) (f := (· + ·)) rfl hsource htarget (Int.add_zero v) hat
  · exact step_neutral_left (n := 0) (f := (· + ·)) rfl hsource htarget (Int.zero_add v) hat
  · exact step_neutral_right (n := 1) (f := (· * ·)) rfl hsource htarget (Int.mul_one v) hat
  · exact step_neutral_left (n := 1) (f := (· * ·)) rfl hsource htarget (Int.one_mul v) hat

/-- Every encoding of an operation has the effect of the operation. -/
theorem step_eq (hform : op.Form form) (hat : m.At value form) (heffect : op.Effect value m m') :
    m.step host s = (.ok .proceed, m', s) := by
  cases heffect with
  | copy hsource htarget =>
    cases hform with
    | copy hform => exact step_copy hform hat hsource htarget
  | @addTo amountMode outMode amount out v a hamount hout =>
    cases hform with
    | addOut =>
      have hat : m.At value (Lowered.instruction .add
        ([.plain outMode out, .plain amountMode amount, .plain outMode out].map OperandWord.lowered)) := hat
      exact Machine.step_binary (f := (· + ·)) rfl hat.opcode (by rw [hat.operand (i := 0) rfl]; exact hout.loads)
        (by rw [hat.operand (i := 1) rfl]; exact hamount) (by rw [hat.operand (i := 2) rfl]; exact hout)
    | addAmount =>
      have hat : m.At value (Lowered.instruction .add
        ([.plain amountMode amount, .plain outMode out, .plain outMode out].map OperandWord.lowered)) := hat
      rw [Int.add_comm (m.memory.get a) v]
      exact Machine.step_binary (f := (· + ·)) rfl hat.opcode (by rw [hat.operand (i := 0) rfl]; exact hamount)
        (by rw [hat.operand (i := 1) rfl]; exact hout.loads) (by rw [hat.operand (i := 2) rfl]; exact hout)
  | @jump target a htarget ha =>
    cases hform with
    | jumpOnZero =>
      have hat : m.At value (Lowered.instruction .jumpIfFalse
        ([.plain .immediate (.num 0), target].map OperandWord.lowered)) := hat
      have hword : m.memory.get m.ip.toNat =
          Instruction.encode (Machine.jumpOn true) [.immediate, target.mode] := hat.opcode
      exact Machine.step_jump_taken hword ((hat.operand (i := 0) rfl).trans (hat.number _))
        (by rw [hat.operand (i := 1) rfl]; exact htarget) ha rfl
    | @jumpOnNonzero _ n hn =>
      have hat : m.At value (Lowered.instruction .jumpIfTrue
        ([.plain .immediate (.num n), target].map OperandWord.lowered)) := hat
      have hword : m.memory.get m.ip.toNat =
          Instruction.encode (Machine.jumpOn false) [.immediate, target.mode] := hat.opcode
      exact Machine.step_jump_taken hword ((hat.operand (i := 0) rfl).trans (hat.number _))
        (by rw [hat.operand (i := 1) rfl]; exact htarget) ha (by simpa using hn)

end Operation.Form

/-! ## Two seeds -/

/-- Two images of one program that differ in how its operations are encoded, and where it follows from that. -/
structure Compiled.Alike (c c' : Compiled) : Prop where
  length_eq : c'.words.length = c.words.length
  labels_eq : c'.labels = c.labels
  builtins_eq : c'.builtins = c.builtins
  globals_eq : c'.globals = c.globals
  globalSlot_eq : ∀ name, c'.globalSlot? name = c.globalSlot? name
  address : ∀ l : Label, l.index < c.labels.size →
    (∃ a, c.assembly.address? l = some a ∧ c'.assembly.address? l = some a) ∨ c.assembly.Moved c'.assembly l
  word : ∀ i < c.words.length, c.assembly.WordCases c'.assembly i

namespace Compile

variable {p : Program}

/-- Twins that are linked are alike. -/
theorem alike_of_twins {L : LabelTable} {d d' : Draft} {asm asm' : Assembly} (h : TwinDrafts L d d')
    (hasm : Assembly.link L d.items = .ok asm) (hasm' : Assembly.link L d'.items = .ok asm')
    (builtins : List Builtin) (globals : List String) :
    Compiled.Alike ⟨asm, L, builtins, globals⟩ ⟨asm', L, builtins, globals⟩ := by
  obtain ⟨hreserved, ⟨T, haccount, hinst, hinst'⟩, -⟩ := h
  obtain ⟨hholds, hlength, -⟩ := Assembly.link_holds hasm
  obtain ⟨hholds', hlength', -⟩ := Assembly.link_holds hasm'
  have himages : Assembly.Images asm asm' 0 T := ⟨⟨_, hinst, hholds⟩, _, hinst', hholds'⟩
  have hmem : ∀ {l : Label}, l.index < L.size → l ∈ Item.labels T.items := fun hl =>
    haccount.labels_perm.symm.subset (Label.mem_range.2 ⟨Nat.zero_le _, hl⟩)
  have haddress := fun (l : Label) (hl : l.index < L.size) => himages.address_cases (hmem hl)
  -- no choice moves a reserved label
  have hsettled : ∀ {l : Label}, l.index < LabelTable.reserved.size →
      ∃ a, asm.address? l = some a ∧ asm'.address? l = some a := fun {l} hl =>
    (haddress l (by omega)).elim id fun ⟨hmoved, _⟩ => absurd (haccount.moved l hmoved) (Nat.not_le_of_lt hl)
  have hglobals : asm'.address? .globalScope = asm.address? .globalScope := by
    obtain ⟨a, ha, ha'⟩ := hsettled (l := .globalScope) (by decide)
    exact ha'.trans ha.symm
  have hsize : Item.size T.items = asm.words.length := by rw [hlength, hinst.size_eq]
  refine ⟨?_, rfl, rfl, rfl, fun name => ?_, fun l hl => (haddress l hl).imp_right And.right, fun i hi => ?_⟩
  · exact (hlength'.trans hinst'.size_eq).trans hsize
  · simp only [Compiled.globalSlot?, Compiled.globalScope?, hglobals]
  · refine himages.word_cases (fun l hl => (haddress l (haccount.refs l hl)).imp_right And.right)
      (fun l hl => hsettled (haccount.folded l hl)) (Nat.zero_le i) ?_
    rw [hsize, Nat.zero_add]
    exact hi

/-- How encodings are chosen changes nothing but encodings: with two ways to choose, a program fails with the same
error, or its images are alike. -/
theorem programWith_alike {source : String} (h : Program.parse source = .ok p) (ramBegin : Nat)
    (choice choice' : Choice) :
    (∃ e, programWith p ramBegin choice = .error e ∧ programWith p ramBegin choice' = .error e) ∨
      ∃ c c', programWith p ramBegin choice = .ok c ∧ programWith p ramBegin choice' = .ok c' ∧ c.Alike c' := by
  have hscoped := Program.wellScoped_of_parse h
  have hgrounded := Program.grounded_of_parse h
  rcases hfree : p.free with _ | ⟨u, rest⟩
  · obtain ⟨d, d', s, s', hd, hd', hlabels, htwins⟩ :=
      exists_runDraft_ok hscoped hgrounded hfree ramBegin choice choice'
    have htwins' := htwins
    obtain ⟨-, ⟨T, haccount, hinst, hinst'⟩, xs, xs', c, hlast, hlast'⟩ := htwins'
    obtain ⟨asm, hasm⟩ := Assembly.exists_link (linkable_of_instance haccount hinst hlast).1 s.labels
    obtain ⟨asm', hasm'⟩ := Assembly.exists_link (linkable_of_instance haccount hinst' hlast').1 s'.labels
    have hc' := programWith_of_link hd' hasm'
    rw [hlabels] at hasm' hc'
    exact .inr ⟨_, _, programWith_of_link hd hasm, hc', alike_of_twins htwins hasm hasm' _ _⟩
  · have hhead : p.free.head? = some u := by
      rw [hfree]
      rfl
    exact .inl ⟨_, programWith_eq_error hscoped hgrounded hhead _ _, programWith_eq_error hscoped hgrounded hhead _ _⟩

/-- A seed changes nothing but encodings: for two seeds a program fails with the same error, or its images are alike;
and whatever encoding is taken, one step has the effect of the operation. -/
theorem program_alike {source : String} (h : Program.parse source = .ok p) (ramBegin : Nat)
    (seed seed' : Option UInt64) :
    ((∃ e, program p ⟨seed, ramBegin⟩ = .error e ∧ program p ⟨seed', ramBegin⟩ = .error e) ∨
      ∃ c c', program p ⟨seed, ramBegin⟩ = .ok c ∧ program p ⟨seed', ramBegin⟩ = .ok c' ∧ c.Alike c') ∧
    ∀ {σ : Type} (host : Host σ) (s : σ) (op : Operation) (form : List Item) (value : Cell → Int) (m m' : Machine),
      op.Form form → m.At value form → op.Effect value m m' → m.step host s = (.ok .proceed, m', s) :=
  ⟨programWith_alike h ramBegin (.ofSeed? seed) (.ofSeed? seed'),
    fun _ _ _ _ _ _ _ hform hat heffect => hform.step_eq hat heffect⟩

/-- A variable that is looked up through the record of another scope. -/
def climbing : String :=
  "main = x => k where k = 1"

/-- A copy of 5 to address 20, encoded as the sum with zero on the left. -/
def copying : Machine :=
  .ofWords [1101, 0, 5, 20]

/-- The number in a word that no label is part of. -/
def numberIn (c : Cell) : Int :=
  match c.word with
  | .num n => n
  | _ => 0

theorem program_climbing :
    ∃ p c c', Program.parse climbing = .ok p ∧ program p ⟨none, 5000⟩ = .ok c ∧
      program p ⟨some 7, 5000⟩ = .ok c' ∧ c.words ≠ c'.words ∧ c.Alike c' ∧
      copying.step Queue.host (.ofInputs []) =
        (.ok .proceed, { copying with memory := copying.memory.set 20 5, ip := 4 }, .ofInputs []) := by
  have h : (Program.parse climbing).toOption.any (fun p =>
      (program p ⟨none, 5000⟩).toOption.any fun c =>
        (program p ⟨some 7, 5000⟩).toOption.any fun c' => decide (c.words ≠ c'.words)) = true := by decide +kernel
  obtain ⟨p, hparse, h⟩ := exists_ok_of_any h
  obtain ⟨c, hc, h⟩ := exists_ok_of_any h
  obtain ⟨c', hc', h⟩ := exists_ok_of_any h
  obtain ⟨halike, hstep⟩ := program_alike hparse 5000 none (some 7)
  rcases halike with ⟨e, he, -⟩ | ⟨d, d', hd, hd', halike⟩
  · rw [hc] at he
    cases he
  · obtain rfl : c = d := Except.ok.inj (hc.symm.trans hd)
    obtain rfl : c' = d' := Except.ok.inj (hc'.symm.trans hd')
    let source : OperandWord := .plain .immediate (.num 5)
    let target : OperandWord := .plain .position (.num 20)
    let zero : OperandWord := .plain .immediate (.num 0)
    let form := Lowered.instruction .add ([zero, source, target].map OperandWord.lowered)
    have hform : (Operation.copy source target).Form form := .copy (List.mem_cons_of_mem _ (List.mem_cons_self ..))
    have hat : copying.At numberIn form := by
      refine ⟨fun _ => rfl, ?_⟩
      intro i c hi
      match i with
      | 0 | 1 | 2 | 3 =>
        cases hi
        rfl
    have heffect : (Operation.copy source target).Effect numberIn copying
        { copying with memory := copying.memory.set 20 5, ip := 4 } :=
      .copy rfl ⟨rfl, by decide⟩
    exact ⟨p, c, c', hparse, hc, hc', of_decide_eq_true h, halike,
      hstep Queue.host (.ofInputs []) _ form numberIn copying _ hform hat heffect⟩

end Compile

end Lamcode
