import Mathlib.Data.List.Chain
import Lamcode.Machine.Listing
import Lamcode.Proofs.Machine.Decoding

/-!
# Lamcode.Proofs.Machine.Partition — a listing shows every word once

A listing falls into blocks: a line of code or data, and above it the symbols placed on the words it covers. What the
image holds at an address is said by `Holds`, and what makes blocks a listing by `Lists`: they cover the addresses of
the image, each one once and in order, and print the symbols inside the image in the order of their addresses. The
blocks are found one at a time (`Covers`). What stands on paper for a block is said by `Block.Prints`, character by
character and without the printer. The main statement is `lines_lists`.
-/

namespace Lamcode

namespace Listing

/-! ## Blocks -/

/-- What a line shows of an image. -/
inductive Shown where
  | instruction (i : Instruction) (operands : List Int)
  | data (word : Int)

/-- How many words the line covers. -/
def Shown.width : Shown → Nat
  | .instruction i _ => 1 + i.opcode.arity
  | .data _ => 1

/-- What an image holds at an address: an instruction, with the words behind it as its operands, if the word decodes
and all its operands are in the image, and data otherwise. -/
inductive Holds (words : List Int) (address : Nat) : Shown → Prop
  | instruction {word : Int} {i : Instruction} (hword : words[address]? = some word)
    (hdecode : Instruction.decode word address = .ok i) (hend : address + i.opcode.arity < words.length) :
    Holds words address (.instruction i ((words.drop (address + 1)).take i.opcode.arity))
  | data {word : Int} (hword : words[address]? = some word)
    (hend : ∀ i, Instruction.decode word address = .ok i → words.length ≤ address + i.opcode.arity) :
    Holds words address (.data word)

/-- A line of code or data, and the symbols that are printed above it. -/
structure Block where
  address : Nat
  shown : Shown
  symbols : List (Nat × String)

namespace Block

/-- The addresses that the block covers. -/
def addresses (b : Block) : List Nat :=
  List.range' b.address b.shown.width

/-- The line of code or data. -/
def body (b : Block) : Line :=
  match b.shown with
  | .instruction i operands => .instruction b.address i operands
  | .data word => .data b.address word

/-- How a symbol above the line is printed: as a heading if it is on the line's own address. -/
def symbolLine (b : Block) (s : Nat × String) : Line :=
  if s.1 = b.address then .heading s.2 else .note s.2 s.1

/-- The lines of the block. -/
def lines (b : Block) : List Line :=
  b.symbols.map b.symbolLine ++ [b.body]

/-- The text of the block. -/
def text (b : Block) : String :=
  String.join (b.lines.map Line.text)

end Block

/-- The blocks are the listing of an image: the lines cover its addresses from 0 on, each next one where the one before
ends, and show what it holds there; the symbols are printed above the lines that cover them, those of the image once
each and no others, in the order of their addresses and on one address in the order of the list. -/
structure Lists (words : List Int) (symbols : List (Nat × String)) (bs : List Block) : Prop where
  first : ∀ b ∈ bs.head?, b.address = 0
  next : bs.IsChain fun b c => c.address = b.address + b.shown.width
  covered : bs.flatMap Block.addresses = List.range words.length
  shown : ∀ b ∈ bs, Holds words b.address b.shown
  above : ∀ b ∈ bs, ∀ s ∈ b.symbols, s.1 ∈ b.addresses
  printed : (bs.flatMap Block.symbols).Perm (symbols.filter fun s => s.1 < words.length)
  sorted : (bs.flatMap Block.symbols).Pairwise fun s t => s.1 ≤ t.1
  stable : ∀ a < words.length,
    (bs.flatMap Block.symbols).filter (fun s => s.1 == a) = symbols.filter fun s => s.1 == a

/-! ## What is printed -/

/-- The names of the operations. -/
inductive Names : Opcode → String → Prop
  | add : Names .add "ADD"
  | multiply : Names .multiply "MULT"
  | read : Names .read "READ"
  | write : Names .write "WRITE"
  | jumpIfTrue : Names .jumpIfTrue "JTRUE"
  | jumpIfFalse : Names .jumpIfFalse "JFALSE"
  | lessThan : Names .lessThan "LT"
  | equals : Names .equals "EQ"
  | adjustBase : Names .adjustBase "REBASE"
  | halt : Names .halt "EXIT"

/-- An operand is its word in decimal, behind the name of its mode. -/
inductive PrintsOperand (word : Int) : Mode → String → Prop
  | position : PrintsOperand word .position ("PTR " ++ toString word)
  | immediate : PrintsOperand word .immediate ("ABS " ++ toString word)
  | relative : PrintsOperand word .relative ("SP " ++ toString word)

/-- Each operand word is printed in the mode of its place. -/
inductive PrintsOperands : List Mode → List Int → List String → Prop
  | nil : PrintsOperands [] [] []
  | cons {mode : Mode} {modes : List Mode} {word : Int} {words : List Int} {text : String} {texts : List String} :
    PrintsOperand word mode text → PrintsOperands modes words texts →
    PrintsOperands (mode :: modes) (word :: words) (text :: texts)

/-- An instruction is the name of its operation with the operands in brackets, and data is one word in decimal. -/
inductive Shown.Prints : Shown → String → Prop
  | instruction {i : Instruction} {operands : List Int} {name : String} {texts : List String} :
    Names i.opcode name → PrintsOperands i.modes operands texts →
    Prints (.instruction i operands) (name ++ "(" ++ ", ".intercalate texts ++ ")")
  | data (word : Int) : Prints (.data word) ("DATA " ++ toString word)

/-- An address at the left margin: in decimal, with blanks in front of it so that it ends in column 8, if it is not
longer than that. -/
structure AtMargin (address : Nat) (text : String) : Prop where
  decimal : ∃ n, text = String.ofList (List.replicate n ' ') ++ toString address
  length : text.length = max 8 (toString address).length

/-- A symbol above the line at `start` is a heading if it is placed there, and else a note that gives its address. -/
inductive PrintsSymbol (start : Nat) : Nat × String → String → Prop
  | heading (name : String) : PrintsSymbol start (start, name) (name ++ ":\n")
  | note {address : Nat} (name : String) : address ≠ start →
    PrintsSymbol start (address, name) ("  ; " ++ name ++ " = operand at " ++ toString address ++ "\n")

/-- What stands on paper for a block. -/
inductive Block.Prints (b : Block) : String → Prop
  | mk {above : List String} {margin line : String} : List.Forall₂ (PrintsSymbol b.address) b.symbols above →
    AtMargin b.address margin → b.shown.Prints line → Prints b (String.join above ++ margin ++ "  " ++ line ++ "\n")

theorem write_eq_toString (n : Int) : Text.Numeral.write n = toString n := by
  cases n with
  | ofNat n => rfl
  | negSucc n => rfl

theorem names_mnemonic (op : Opcode) : Names op op.mnemonic := by
  cases op <;> constructor

theorem printsOperand_listed (word : Int) (mode : Mode) :
    PrintsOperand word mode (mode.listed ++ " " ++ Text.Numeral.write word) := by
  rw [write_eq_toString]
  cases mode with
  | position => exact .position
  | immediate => exact .immediate
  | relative => exact .relative

theorem printsOperands_zip {modes : List Mode} {operands : List Int} (h : operands.length = modes.length) :
    PrintsOperands modes operands
      ((operands.zip modes).map fun (value, mode) => mode.listed ++ " " ++ Text.Numeral.write value) := by
  induction modes generalizing operands with
  | nil =>
    obtain rfl := List.length_eq_zero_iff.1 h
    exact .nil
  | cons mode modes ih =>
    obtain ⟨word, operands, rfl⟩ := List.exists_cons_of_length_eq_add_one h
    exact .cons (printsOperand_listed word mode) (ih (Nat.succ.inj h))

/-- Up to three operands are shown, and no instruction has more. -/
theorem zip_modes {i : Instruction} {operands : List Int} (h : operands.length = i.modes.length)
    (hthree : i.modes.length ≤ 3) : operands.zip [i.mode 0, i.mode 1, i.mode 2] = operands.zip i.modes := by
  obtain ⟨op, modes⟩ := i
  rcases modes with _ | ⟨m₀, _ | ⟨m₁, _ | ⟨m₂, _ | ⟨m₃, rest⟩⟩⟩⟩
  · obtain rfl := List.length_eq_zero_iff.1 h
    rfl
  · obtain ⟨v₀, rfl⟩ := List.length_eq_one_iff.1 h
    rfl
  · obtain ⟨v₀, v₁, rfl⟩ := List.length_eq_two.1 h
    rfl
  · obtain ⟨v₀, v₁, v₂, rfl⟩ := List.length_eq_three.1 h
    rfl
  · simp only [List.length_cons] at hthree
    omega

/-- An instruction that an image holds has a mode for each of its operand words. -/
theorem prints_render {words : List Int} {address : Nat} {i : Instruction} {operands : List Int}
    (h : Holds words address (.instruction i operands)) :
    Shown.Prints (.instruction i operands) (i.render operands) := by
  cases h with
  | @instruction word _ hword hdecode hend =>
    have hmodes : i.modes.length = i.opcode.arity := (Instruction.decode_eq_ok_iff.1 hdecode).1
    have hlength : ((words.drop (address + 1)).take i.opcode.arity).length = i.modes.length := by
      rw [hmodes, List.length_take, List.length_drop]
      omega
    have hthree : i.modes.length ≤ 3 := hmodes ▸ i.opcode.arity_le
    unfold Instruction.render
    rw [zip_modes hlength hthree]
    exact .instruction (names_mnemonic i.opcode) (printsOperands_zip hlength)

theorem atMargin_alignRight (address : Nat) : AtMargin address (alignRight 8 address) := by
  refine ⟨⟨_, rfl⟩, ?_⟩
  rw [alignRight, String.length_append, String.length_ofList, List.length_replicate]
  change _ = max 8 (Nat.repr address).length
  omega

theorem printsSymbol_symbolLine (b : Block) (s : Nat × String) :
    PrintsSymbol b.address s (b.symbolLine s).text := by
  obtain ⟨address, name⟩ := s
  unfold Block.symbolLine
  split
  · next h =>
    obtain rfl : address = b.address := h
    exact .heading name
  · next h => exact .note name h

/-- The text of a block is what has to stand there. -/
theorem Block.prints_text {words : List Int} {b : Block} (h : Holds words b.address b.shown) : b.Prints b.text := by
  have habove : List.Forall₂ (PrintsSymbol b.address) b.symbols (b.symbols.map fun s => (b.symbolLine s).text) := by
    rw [List.forall₂_map_right_iff]
    exact List.forall₂_same.2 fun s _ => printsSymbol_symbolLine b s
  have hbody : ∃ line, b.shown.Prints line ∧ b.body.text = alignRight 8 b.address ++ "  " ++ line ++ "\n" := by
    unfold Block.body
    cases hshown : b.shown with
    | instruction i operands =>
      rw [hshown] at h
      exact ⟨_, prints_render h, rfl⟩
    | data word =>
      refine ⟨_, .data word, ?_⟩
      simp only [Line.text, write_eq_toString, String.append_assoc]
      rfl
  obtain ⟨line, hline, hbody⟩ := hbody
  have htext : b.text = String.join (b.symbols.map fun s => (b.symbolLine s).text) ++ alignRight 8 b.address ++
      "  " ++ line ++ "\n" := by
    rw [← String.toList_inj, text, lines]
    simp [hbody, List.flatMap_map, String.append_assoc]
  rw [htext]
  exact .mk habove (atMargin_alignRight b.address) hline

/-! ## Symbols of an interval -/

/-- The symbols placed on the addresses of an interval, in the order of their addresses. -/
def symbolsIn (symbols : List (Nat × String)) (start width : Nat) : List (Nat × String) :=
  (List.range' start width).flatMap fun a => symbols.filter fun s => s.1 == a

section

variable (symbols : List (Nat × String)) (start : Nat)

theorem symbolsIn_append (width width' : Nat) :
    symbolsIn symbols start (width + width') =
      symbolsIn symbols start width ++ symbolsIn symbols (start + width) width' := by
  rw [symbolsIn, ← List.range'_append_1, List.flatMap_append]
  rfl

variable {symbols start} {width : Nat}

theorem mem_symbolsIn {s : Nat × String} :
    s ∈ symbolsIn symbols start width ↔ s ∈ symbols ∧ s.1 ∈ List.range' start width := by
  simp only [symbolsIn, List.mem_flatMap, List.mem_filter, beq_iff_eq]
  constructor
  · rintro ⟨a, ha, hs, rfl⟩
    exact ⟨hs, ha⟩
  · rintro ⟨hs, ha⟩
    exact ⟨s.1, ha, hs, rfl⟩

theorem pairwise_symbolsIn : (symbolsIn symbols start width).Pairwise fun s t => s.1 ≤ t.1 := by
  refine List.pairwise_flatMap.2 ⟨fun a _ => List.pairwise_of_forall_mem_list fun s hs t ht => ?_, ?_⟩
  · rw [beq_iff_eq.1 (List.mem_filter.1 hs).2, beq_iff_eq.1 (List.mem_filter.1 ht).2]
  · refine (List.pairwise_lt_range' (s := start) (n := width)).imp fun hab s hs t ht => ?_
    rw [beq_iff_eq.1 (List.mem_filter.1 hs).2, beq_iff_eq.1 (List.mem_filter.1 ht).2]
    exact Nat.le_of_lt hab

theorem filter_filter_address (a b : Nat) :
    (symbols.filter fun s => s.1 == b).filter (fun s => s.1 == a) =
      if b = a then symbols.filter fun s => s.1 == a else [] := by
  rw [List.filter_filter]
  split
  · next h => simp [h]
  · next h =>
    rw [List.filter_eq_nil_iff]
    intro s _ hs
    simp only [Bool.and_eq_true, beq_iff_eq] at hs
    exact h (hs.2.symm.trans hs.1)

/-- On one address the order of the list is kept. -/
theorem filter_symbolsIn (a : Nat) :
    (symbolsIn symbols start width).filter (fun s => s.1 == a) =
      if a ∈ List.range' start width then symbols.filter fun s => s.1 == a else [] := by
  induction width generalizing start with
  | zero => simp [symbolsIn]
  | succ n ih =>
    have hhead : symbolsIn symbols start (n + 1) =
        (symbols.filter fun s => s.1 == start) ++ symbolsIn symbols (start + 1) n := by
      rw [symbolsIn, List.range'_succ, List.flatMap_cons]
      rfl
    rw [hhead, List.filter_append, ih, filter_filter_address]
    simp only [List.mem_range'_1]
    grind

/-- A symbol of an image is printed once for each time it is in the list. -/
theorem symbolsIn_perm (n : Nat) : (symbolsIn symbols 0 n).Perm (symbols.filter fun s => s.1 < n) := by
  refine List.perm_iff_count.2 fun s => ?_
  by_cases hs : s.1 < n
  · have hcount : ∀ l : List (Nat × String), (l.filter fun t => t.1 == s.1).count s = l.count s := fun l =>
      List.count_filter (by simp)
    rw [List.count_filter (by simpa using hs), ← hcount, ← hcount symbols, filter_symbolsIn, if_pos (by simpa using hs)]
  · rw [List.count_eq_zero_of_not_mem, List.count_eq_zero_of_not_mem]
    · simp [hs]
    · simp [mem_symbolsIn, hs]

end

/-! ## Block by block -/

/-- The blocks are those of an image from an address to its end. -/
inductive Covers (words : List Int) (symbols : List (Nat × String)) : Nat → List Block → Prop
  | done : Covers words symbols words.length []
  | block {b : Block} {bs : List Block} (hshown : Holds words b.address b.shown)
    (hsymbols : b.symbols = symbolsIn symbols b.address b.shown.width)
    (hbelow : Covers words symbols (b.address + b.shown.width) bs) : Covers words symbols b.address (b :: bs)

/-- A line that shows what the image holds ends inside the image. -/
theorem Holds.end_le {words : List Int} {address : Nat} {shown : Shown} (h : Holds words address shown) :
    address + shown.width ≤ words.length := by
  cases h with
  | instruction hword hdecode hend =>
    rw [Shown.width]
    omega
  | data hword hend => exact (List.getElem?_eq_some_iff.1 hword).1

namespace Covers

variable {words : List Int} {symbols : List (Nat × String)} {start : Nat} {bs : List Block}

theorem first (h : Covers words symbols start bs) : ∀ b ∈ bs.head?, b.address = start := by
  cases h with
  | done => simp
  | block => simp

theorem next (h : Covers words symbols start bs) : bs.IsChain fun b c => c.address = b.address + b.shown.width := by
  induction h with
  | done => exact .nil
  | block hshown hsymbols hbelow ih => exact List.isChain_cons.2 ⟨hbelow.first, ih⟩

/-- What stands for each block in an interval stands for all of them in the interval from the start to the end. -/
theorem flatMap_eq {β : Type} {f : Block → List β} {g : Nat → Nat → List β} (hg : ∀ a, g a 0 = [])
    (happend : ∀ a n n', g a (n + n') = g a n ++ g (a + n) n')
    (hf : ∀ b : Block, b.symbols = symbolsIn symbols b.address b.shown.width → f b = g b.address b.shown.width)
    (h : Covers words symbols start bs) : bs.flatMap f = g start (words.length - start) := by
  induction h with
  | done => rw [Nat.sub_self, hg, List.flatMap_nil]
  | @block b bs hshown hsymbols hbelow ih =>
    have hlength : words.length - b.address = b.shown.width + (words.length - (b.address + b.shown.width)) := by
      have := hshown.end_le
      omega
    rw [List.flatMap_cons, ih, hf b hsymbols, hlength, happend]

theorem covered (h : Covers words symbols start bs) :
    bs.flatMap Block.addresses = List.range' start (words.length - start) :=
  h.flatMap_eq (g := fun a n => List.range' a n) (fun _ => rfl) (fun _ _ _ => List.range'_append_1.symm) fun _ _ => rfl

theorem printed (h : Covers words symbols start bs) :
    bs.flatMap Block.symbols = symbolsIn symbols start (words.length - start) :=
  h.flatMap_eq (g := symbolsIn symbols) (fun _ => rfl) (symbolsIn_append symbols) fun _ hb => hb

theorem shown (h : Covers words symbols start bs) : ∀ b ∈ bs, Holds words b.address b.shown := by
  induction h with
  | done => simp
  | block hshown hsymbols hbelow ih => exact List.forall_mem_cons.2 ⟨hshown, ih⟩

theorem above (h : Covers words symbols start bs) : ∀ b ∈ bs, ∀ s ∈ b.symbols, s.1 ∈ b.addresses := by
  induction h with
  | done => simp
  | block hshown hsymbols hbelow ih =>
    refine List.forall_mem_cons.2 ⟨fun s hs => ?_, ih⟩
    rw [hsymbols] at hs
    exact (mem_symbolsIn.1 hs).2

theorem lists (h : Covers words symbols 0 bs) : Lists words symbols bs where
  first := h.first
  next := h.next
  covered := by rw [h.covered, Nat.sub_zero, List.range_eq_range']
  shown := h.shown
  above := h.above
  printed := by
    rw [h.printed]
    exact symbolsIn_perm _
  sorted := by
    rw [h.printed]
    exact pairwise_symbolsIn
  stable := by
    intro a ha
    rw [h.printed, filter_symbolsIn, if_pos (by simpa using ha)]

end Covers

/-! ## The sweep -/

/-- Above a line the symbols on its own address are headings, and those on its operands notes. -/
theorem map_symbolLine (symbols : List (Nat × String)) (b : Block) (n : Nat) :
    (symbolsIn symbols b.address (1 + n)).map b.symbolLine =
      (namesAt symbols b.address).map Line.heading ++ notes symbols b.address n := by
  have hheading : ∀ s ∈ symbols.filter (fun s => s.1 == b.address), b.symbolLine s = .heading s.2 := by
    intro s hs
    exact if_pos (beq_iff_eq.1 (List.mem_filter.1 hs).2)
  have hnote : ∀ k, ∀ s ∈ symbols.filter (fun s => s.1 == b.address + 1 + k),
      b.symbolLine s = .note s.2 (b.address + 1 + k) := by
    intro k s hs
    have haddress := beq_iff_eq.1 (List.mem_filter.1 hs).2
    rw [Block.symbolLine, if_neg (by omega), haddress]
  rw [symbolsIn, Nat.add_comm 1 n, List.range'_succ, List.flatMap_cons, List.map_append, List.map_congr_left hheading,
    namesAt, List.map_map, List.range'_eq_map_range, List.flatMap_map, List.map_flatMap, notes]
  congr 1
  refine List.flatMap_congr fun k _ => ?_
  rw [List.map_congr_left (hnote k), namesAt, List.map_map]
  rfl

section

variable {words : List Int} {address : Nat}

theorem drop_eq_cons {word : Int} (h : words[address]? = some word) :
    words.drop address = word :: words.drop (address + 1) := by
  obtain ⟨hlt, rfl⟩ := List.getElem?_eq_some_iff.1 h
  exact List.drop_eq_getElem_cons hlt

/-- Inside an image there is something to show. -/
theorem exists_holds (h : address < words.length) : ∃ shown, Holds words address shown := by
  have hword := List.getElem?_eq_getElem h
  by_cases hfits : ∃ i, Instruction.decode words[address] address = .ok i ∧ address + i.opcode.arity < words.length
  · obtain ⟨i, hdecode, hend⟩ := hfits
    exact ⟨_, .instruction hword hdecode hend⟩
  · exact ⟨_, .data hword fun i hdecode => Nat.le_of_not_lt fun hend => hfits ⟨i, hdecode, hend⟩⟩

/-- One block is listed, and the listing goes on behind it. -/
theorem linesFrom_block (symbols : List (Nat × String)) {shown : Shown} (h : Holds words address shown) :
    linesFrom symbols address (words.drop address) =
      Block.lines ⟨address, shown, symbolsIn symbols address shown.width⟩ ++
        linesFrom symbols (address + shown.width) (words.drop (address + shown.width)) := by
  cases h with
  | @instruction word i hword hdecode hend =>
    have hfits : fits word address (words.drop (address + 1)).length = some i := by
      rw [fits, hdecode]
      exact if_pos (by rw [List.length_drop]; omega)
    rw [drop_eq_cons hword, linesFrom, hfits]
    dsimp only
    rw [List.drop_drop, Block.lines, Shown.width, map_symbolLine symbols ⟨address, _, _⟩, List.append_assoc,
      List.append_assoc, List.append_assoc, ← Nat.add_assoc]
    rfl
  | @data word hword hend =>
    have hlt := (List.getElem?_eq_some_iff.1 hword).1
    have hfits : fits word address (words.drop (address + 1)).length = none := by
      rw [fits]
      split
      · rfl
      · next i hdecode =>
        have := hend i hdecode
        exact if_neg (by rw [List.length_drop]; omega)
    have hheadings := map_symbolLine symbols ⟨address, .data word, symbolsIn symbols address 1⟩ 0
    rw [drop_eq_cons hword, linesFrom, hfits, Block.lines, Shown.width, hheadings, List.append_assoc, List.append_assoc]
    rfl

end

/-- The listing of an image goes on from any address block by block. -/
theorem exists_covers (words : List Int) (symbols : List (Nat × String)) {start : Nat} (h : start ≤ words.length) :
    ∃ bs, Covers words symbols start bs ∧ linesFrom symbols start (words.drop start) = bs.flatMap Block.lines := by
  induction hleft : words.length - start using Nat.strongRecOn generalizing start with
  | ind n ih =>
    subst hleft
    by_cases hend : start = words.length
    · subst hend
      refine ⟨[], .done, ?_⟩
      rw [List.drop_length, linesFrom]
      rfl
    · obtain ⟨shown, hshown⟩ := exists_holds (Nat.lt_of_le_of_ne h hend)
      have hle := hshown.end_le
      have hwidth : 0 < shown.width := by cases shown <;> simp [Shown.width, Nat.add_comm 1]
      obtain ⟨bs, hcovers, hlines⟩ := ih _ (by omega) hle rfl
      let b : Block := ⟨start, shown, symbolsIn symbols start shown.width⟩
      refine ⟨b :: bs, .block (b := b) hshown rfl hcovers, ?_⟩
      rw [linesFrom_block symbols hshown, hlines, List.flatMap_cons]

/-- The lines of an image are those of blocks that list it, and what is printed is their text: each word is shown once,
as the word or an operand of an instruction or as data, and each symbol of the image above the line that covers it. -/
theorem lines_lists (words : List Int) (symbols : List (Nat × String)) :
    ∃ bs, Lists words symbols bs ∧ lines words symbols = bs.flatMap Block.lines ∧
      (∀ b ∈ bs, b.Prints b.text) ∧ render words symbols = String.join (bs.map Block.text) := by
  obtain ⟨bs, hcovers, hlines⟩ := exists_covers words symbols (Nat.zero_le _)
  refine ⟨bs, hcovers.lists, hlines, fun b hb => Block.prints_text (hcovers.shown b hb), ?_⟩
  rw [render, show lines words symbols = _ from hlines, ← String.toList_inj]
  simp [String.toList_join, List.flatMap_map, List.map_flatMap, Block.text, List.flatMap_assoc]

end Listing

end Lamcode
