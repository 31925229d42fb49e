import Lamcode.Proofs.Code.Entry
import Lamcode.Proofs.Link.Blocks

/-!
# Lamcode.Proofs.Code.Patching — lowering keeps the meaning of operands

Every kind of operand that is known only at run time is lowered to a word under a label of its own and code that stores
the right number there (`Entry.Prepares.written`). Such a word is nothing that other code reads, with one exception: the
address of a variable is put together in its word step by step. While that goes on, the word counts as data of an entry
of its own (`Entry.reveal`).

By induction on the operand, the lowered operand holds what the operand means on the machine that enters the code
(`Entry.prepares_meaning`). So the code of an instruction, linked anywhere, does what the instruction means there
(`Request.runs_as_meant`).
-/

namespace Lamcode

open Assembly Machine

namespace Entry

variable {E : Entry} {σ : Type} {host : Host σ} {s : σ}

/-! ## Words that the code writes -/

/-- A machine that has stored a value has the value where it was stored. -/
def Stored (E : Entry) (range : Nat → Prop) (c finish : Nat) (m : Machine) (v : Int) (m' : Machine) : Prop :=
  ∃ m₁, E.Agrees m₁ ∧ Kept range m m₁ ∧ m' = { m₁ with memory := m₁.memory.set c v, ip := .ofNat finish }

namespace Stored

variable {range : Nat → Prop} {c finish : Nat} {m m' : Machine} {v : Int}

theorem get_eq (h : Stored E range c finish m v m') : m'.memory.get c = v := by
  obtain ⟨m₁, -, -, rfl⟩ := h
  rw [Memory.get_set, if_pos rfl]

theorem ip_eq (h : Stored E range c finish m v m') : m'.ip = .ofNat finish := by
  obtain ⟨m₁, -, -, rfl⟩ := h
  rfl

theorem kept (h : Stored E range c finish m v m') : Kept (fun y => y = c ∨ range y) m m' := by
  obtain ⟨m₁, -, hkept, rfl⟩ := h
  intro y hy
  rw [Memory.get_set, if_neg fun hc => hy (.inl hc.symm)]
  exact hkept y fun hs => hy (.inr hs)

theorem agrees (h : Stored E range c finish m v m') (hc : E.patched c) : E.Agrees m' := by
  obtain ⟨m₁, hm₁, -, rfl⟩ := h
  exact hm₁.set hc v (.ofNat finish)

end Stored

/-- Once the action has happened, the value is there. -/
theorem Performs.stored {range : Nat → Prop} {c here finish : Nat} {m : Machine} {action : Except Fault Action}
    {r : Except Fault Int} (h : Performs host s E range here finish m action)
    (haction : action = do return .store c (← r)) : Runs host s m r (Stored E range c finish m) E.Agrees := by
  obtain ⟨m', hreach, hm', hstep, hready⟩ := h
  subst haction
  cases r with
  | error e => exact ⟨m', hreach, hm', hstep⟩
  | ok v => exact ⟨_, hreach.trans (.of_step hstep), m', hm', (hready ⟨_, rfl⟩).2, rfl⟩

section

variable {a c : Nat} {m : Machine} {tag : Label} (haddress : E.addresses[tag.index]? = some c)
  (hlt : c < Memory.addressLimit) (hm : E.Agrees m) (hip : m.ip = .ofNat a)

include haddress hlt hm hip

/-- A function of two values gets into the word that a label stands for. -/
theorem combined_stored {op : Opcode} {f : Int → Int → Int} (hf : op.binary? = some f) {l₀ l₁ : Lowered}
    {r₀ r₁ : Except Fault Meaning} (h₀ : Prepares host s E l₀ r₀) (h₁ : Prepares host s E l₁ r₁)
    (hclear₀ : E.Clear r₀) (hclear₁ : E.Clear r₁) {items : List Item}
    (hitems : items = Lowered.instruction op [l₀, l₁, .wordAt tag]) (hcode : E.CodeAt a items) :
    Runs host s m (do
        let x ← r₀
        let y ← r₁
        let v ← x.value E.machine
        let w ← y.value E.machine
        return f v w)
      (Stored E (Span a (Item.size items)) c (a + Item.size items) m) E.Agrees := by
  subst hitems
  obtain ⟨here, hhere⟩ : ∃ here, here + 4 = a + Item.size (Lowered.instruction op [l₀, l₁, .wordAt tag]) := by
    rw [Lowered.size_instruction]
    exact ⟨_, Nat.add_assoc a _ 4⟩
  have h := performs_combined hf (.cons h₀ (.cons h₁ (.cons (.wordAt haddress) .nil))) hclear₀ hclear₁ hcode hm
    hip hhere
  rw [hhere] at h
  refine h.stored ?_
  simp only [Action.combined, Meaning.target_position _ _ hlt, ok_bind, bind_assoc, pure_bind]

/-- A value is copied into the word that a label stands for. -/
theorem copied_stored {source : Lowered} {r : Except Fault Meaning} {items : List Item}
    (hitems : items ∈ Emit.copyForms source (.wordAt tag)) (hsource : Prepares host s E source r)
    (hclear : E.Clear r) (hcode : E.CodeAt a items) :
    Runs host s m (r >>= Meaning.value E.machine) (Stored E (Span a (Item.size items)) c (a + Item.size items) m)
      E.Agrees := by
  obtain ⟨here, hhere⟩ : ∃ here, here + 4 = a + Item.size items := by
    refine ⟨a + Item.size items - 4, Nat.sub_add_cancel ?_⟩
    exact Nat.le_trans (Emit.four_le_size hitems) (Nat.le_add_left _ _)
  have h := performs_copied hitems hsource (.wordAt haddress) hclear hcode hm hip hhere
  rw [hhere] at h
  refine h.stored ?_
  simp only [Action.copied, Meaning.target_position _ _ hlt, ok_bind, bind_assoc]

end

/-- A cell under a label of the code is written by the code. -/
theorem CellAt.tagged {c : Nat} {w : Word} {tag : Label} (h : E.CellAt c (.labeled w tag))
    (htag : E.first ≤ tag.index) :
    E.addresses[tag.index]? = some c ∧ E.patched c :=
  ⟨h.address tag (by simp [Cell.labeled]), h.patched.2 ⟨tag, by simp [Cell.labeled], htag⟩⟩

/-- A word under a label of the code, for which the code in front of it gets the number. -/
theorem Prepares.written (mode : Mode) {tag : Label} {setup : List Item} {r : Except Fault Int}
    (htag : E.first ≤ tag.index)
    (hruns : ∀ {a c : Nat} {m : Machine}, E.CodeAt a setup → E.addresses[tag.index]? = some c →
      c < Memory.addressLimit → E.patched c → ¬ Span a (Item.size setup) c → E.Agrees m → m.ip = .ofNat a →
      Runs host s m r (fun v m' => m'.memory.get c = v ∧ m'.ip = .ofNat (a + Item.size setup) ∧ E.Agrees m' ∧
        Kept (fun y => y = c ∨ Span a (Item.size setup) y) m m') E.Agrees) :
    Prepares host s E (.written mode tag setup) (do return ⟨mode, ← r⟩) where
  eq_of_fixed h := nomatch h
  mode_eq hx := by
    cases r <;> cases hx
    rfl
  runs := by
    intro a c m hcode hc hout hm hip
    obtain ⟨haddress, hpatched⟩ := hc.tagged htag
    exact (hruns hcode haddress hc.lt hpatched hout hm hip).bind fun _ _ _ h => .pure h

/-- A word that a copy writes holds what was copied. -/
theorem Prepares.copied (mode : Mode) {source : Lowered} {r : Except Fault Meaning} {tag : Label} {setup : List Item}
    (hsetup : setup ∈ Emit.copyForms source (.wordAt tag)) (htag : E.first ≤ tag.index)
    (hsource : Prepares host s E source r) (hclear : E.Clear r) :
    Prepares host s E (.written mode tag setup) (do
      let x ← r
      let v ← x.value E.machine
      return ⟨mode, v⟩) := by
  rw [← bind_assoc]
  refine .written mode htag fun hcode haddress hlt hpatched _ hm hip => ?_
  refine (copied_stored haddress hlt hm hip hsetup hsource hclear hcode).mono (fun v m' h => ?_) fun _ hm' => hm'
  exact ⟨h.get_eq, h.ip_eq, h.agrees hpatched, h.kept⟩

/-- A word that an addition writes holds the sum. -/
theorem Prepares.added (mode : Mode) {base amount : Lowered} {r r' : Except Fault Meaning} {tag : Label}
    (htag : E.first ≤ tag.index) (hbase : Prepares host s E base r) (hamount : Prepares host s E amount r')
    (hclear : E.Clear r') :
    Prepares host s E
      (.written mode tag (Lowered.instruction .add [{ base with mode := .immediate }, amount, .wordAt tag]))
      (do
        let x ← r
        let y ← r'
        let v ← y.value E.machine
        return ⟨mode, x.raw + v⟩) := by
  have hclear' : E.Clear (do return ⟨.immediate, (← r).raw⟩) := by
    cases r with
    | error e => exact fun x hx => nomatch hx
    | ok x => exact E.clear_immediate x.raw
  have hadd : Opcode.add.binary? = some (· + ·) := rfl
  have hsum : (do
      let x ← r
      let y ← r'
      let v ← y.value E.machine
      return (⟨mode, x.raw + v⟩ : Meaning)) = (do
      let sum ← (do
        let x ← (do return ⟨.immediate, (← r).raw⟩)
        let y ← r'
        let v ← Meaning.value E.machine x
        let w ← y.value E.machine
        return v + w)
      return ⟨mode, sum⟩) := by
    simp only [bind_assoc, pure_bind, Meaning.value_immediate, ok_bind]
  rw [hsum]
  refine .written mode htag fun hcode haddress hlt hpatched _ hm hip => ?_
  have h := combined_stored haddress hlt hm hip hadd (hbase.withMode .immediate) hamount hclear' hclear rfl hcode
  exact h.mono (fun v m' h => ⟨h.get_eq, h.ip_eq, h.agrees hpatched, h.kept⟩) fun _ hm' => hm'

/-! ## A word of the code that counts as data for a while -/

/-- The code is entered anew by another machine, and does not write the word at `c`. -/
def reveal (E : Entry) (m : Machine) (c : Nat) : Entry where
  addresses := E.addresses
  first := E.first
  machine := m
  patched y := E.patched y ∧ y ≠ c

section

variable {m m' : Machine} {c : Nat}

/-- Code that does not cover the word is the same code. -/
theorem CodeAt.reveal {a : Nat} {items : List Item} (h : E.CodeAt a items) (hm : E.Agrees m)
    (hc : ¬ Span a (Item.size items) c) : (E.reveal m c).CodeAt a items := by
  intro k cell hk
  have hcell := h k cell hk
  have hne : a + k ≠ c := by
    rintro rfl
    have := (List.getElem?_eq_some_iff.1 hk).1
    rw [Item.length_cells] at this
    exact hc ⟨Nat.le_add_right _ _, by omega⟩
  exact ⟨hcell.lt, hcell.address, (and_iff_left hne).trans hcell.patched, hm.word_eq hcell⟩

theorem Agrees.of_reveal (h : (E.reveal m c).Agrees m') (hm : E.Agrees m) : E.Agrees m' := by
  refine ⟨h.base.trans hm.base, h.status.trans hm.status, fun y hy => ?_⟩
  rw [← hm.memory y hy]
  exact h.memory y fun hpatched => hy hpatched.1

theorem Stored.of_reveal {range : Nat → Prop} {finish : Nat} {v : Int} (h : Stored (E.reveal m c) range c finish m v m')
    (hm : E.Agrees m) : Stored E range c finish m v m' := by
  obtain ⟨m₁, hm₁, hkept, rfl⟩ := h
  exact ⟨m₁, hm₁.of_reveal hm, hkept, rfl⟩

/-- The word itself can be read then. -/
theorem clear_reveal (hc : c < Memory.addressLimit) : (E.reveal m c).Clear (.ok ⟨.position, (c : Int)⟩) := by
  intro x hx y hy
  cases hx
  rw [Meaning.words_position _ hc, List.mem_singleton] at hy
  exact fun hpatched => hpatched.2 hy

theorem value_reveal {v : Int} (hc : c < Memory.addressLimit) (h : m.memory.get c = v) :
    Meaning.value (E.reveal m c).machine ⟨.position, (c : Int)⟩ = .ok v := by
  rw [Meaning.value_position _ hc]
  exact congrArg Except.ok h

/-- The word is replaced by a value for which it may have been read itself. -/
theorem replaced_stored {a : Nat} {tag : Label} (haddress : E.addresses[tag.index]? = some c)
    (hlt : c < Memory.addressLimit) (hm : E.Agrees m) (hip : m.ip = .ofNat a) {source : Lowered}
    {r : Except Fault Meaning} {items : List Item} (hitems : items ∈ Emit.copyForms source (.wordAt tag))
    (hsource : Prepares host s (E.reveal m c) source r) (hclear : (E.reveal m c).Clear r) (hcode : E.CodeAt a items)
    (hout : ¬ Span a (Item.size items) c) :
    Runs host s m (r >>= Meaning.value m) (Stored E (Span a (Item.size items)) c (a + Item.size items) m)
      E.Agrees := by
  have haddress' : (E.reveal m c).addresses[tag.index]? = some c := haddress
  have h := copied_stored haddress' hlt (E.reveal m c).agrees_self hip hitems hsource hclear (hcode.reveal hm hout)
  exact h.mono (fun _ _ h => h.of_reveal hm) fun _ h => h.of_reveal hm

end

/-! ## Variables -/

/-- Each parent that is followed replaces the record in the word at `c` by the one around it. -/
theorem climb_runs {tag : Label} {c : Nat} (haddress : E.addresses[tag.index]? = some c) (hlt : c < Memory.addressLimit)
    (hpatched : E.patched c) {t : ScopeTable} {site : Site} {n : Nat} {record : Int} {items : List Item}
    (hitems : Emit.EmitsFrom E.first t site (Emit.followParents tag n) items) {a : Nat} {m : Machine}
    (hcode : E.CodeAt a items) (hout : ¬ Span a (Item.size items) c) (hm : E.Agrees m) (hip : m.ip = .ofNat a)
    (hrecord : m.memory.get c = record) (hwords : ∀ y ∈ E.machine.climbWords n record, ¬ E.patched y) :
    Runs host s m (E.machine.climb n record) (fun v m' => m'.memory.get c = v ∧
      m'.ip = .ofNat (a + Item.size items) ∧ E.Agrees m' ∧
        Kept (fun y => y = c ∨ Span a (Item.size items) y) m m') E.Agrees := by
  induction n generalizing record items a m with
  | zero =>
    obtain rfl := hitems.pure
    exact .pure ⟨hrecord, hip, hm, fun _ _ => rfl⟩
  | succ n ih =>
    obtain ⟨up, load, code, more, hup, hload, hcopy, hmore, rfl⟩ := hitems.followParents_succ
    rw [codeAt_append] at hcode
    rw [Item.size_append] at hout ⊢
    have hout₁ : ¬ Span a (Item.size code) c := fun hs => hout ⟨hs.1, by unfold Span at hs; omega⟩
    have hout₂ : ¬ Span (a + Item.size code) (Item.size more) c := fun hs =>
      hout (by unfold Span at hs ⊢; omega)
    -- the word at `c` is read and written, so it counts as data while the record is replaced
    have haddress' : (E.reveal m c).addresses[tag.index]? = some c := haddress
    have hparent : Prepares host s (E.reveal m c) (.written .position up load) (.ok ⟨.position, record⟩) := by
      have hfirst : (E.reveal m c).first ≤ up.index := hup
      have hpointer : Prepares host s (E.reveal m c) (.wordAt tag) (.ok ⟨.position, c⟩) := .wordAt haddress'
      have h := Prepares.copied .position hload hfirst hpointer (clear_reveal hlt)
      rwa [ok_bind, value_reveal hlt hrecord] at h
    have hplace : ∀ y ∈ Meaning.words E.machine ⟨.position, record⟩, ¬ E.patched y := fun y hy =>
      hwords y (List.mem_append_left _ hy)
    have hclear : (E.reveal m c).Clear (.ok ⟨.position, record⟩) := by
      intro x hx y hy
      cases hx
      rw [Meaning.words_congr (show (E.reveal m c).machine.base = E.machine.base from hm.base)] at hy
      exact fun hs => hplace y hy hs.1
    have hcopied := replaced_stored haddress hlt hm hip hcopy hparent hclear hcode.1 hout₁
    change Runs host s m (Meaning.value m ⟨.position, record⟩) _ _ at hcopied
    rw [hm.value_eq hplace] at hcopied
    refine hcopied.bind fun outer m₁ houter hstored => ?_
    have hrest : ∀ y ∈ E.machine.climbWords n outer, ¬ E.patched y := by
      refine fun y hy => hwords y (List.mem_append_right _ ?_)
      rwa [houter]
    have hm₁ := hstored.agrees hpatched
    refine (ih hmore hcode.2 hout₂ hm₁ hstored.ip_eq hstored.get_eq hrest).mono ?_ fun _ h => h
    rintro v m₂ ⟨hget, hip₂, hm₂, hkept⟩
    exact ⟨hget, by rw [hip₂, Nat.add_assoc], hm₂, hstored.kept.append hkept⟩

/-- The address of a variable is put together in the word under the tag, from the scope pointer on. -/
theorem Prepares.dynamic {t : ScopeTable} {site : Site} {scopeSlot : Int} {tag add : Label} {levelsUp index : Nat}
    {start climb store : List Item} (htag : E.first ≤ tag.index) (hadd : E.first ≤ add.index)
    (hstart : start ∈ Emit.copyForms (.fixed .relative (.plain (.num scopeSlot))) (.wordAt tag))
    (hclimb : Emit.EmitsFrom E.first t site (Emit.followParents tag levelsUp) climb)
    (hstore : store ∈ Emit.copyForms
      (.written .immediate add (Lowered.instruction .add
        [.fixed .immediate (.plain (.num (Heap.recordHeader + index : Nat))), .wordAt tag, .wordAt add]))
      (.wordAt tag))
    (hscope : ∀ y ∈ Meaning.words E.machine ⟨.relative, scopeSlot⟩, ¬ E.patched y)
    (hwords : ∀ scope, Meaning.value E.machine ⟨.relative, scopeSlot⟩ = .ok scope →
      ∀ y ∈ E.machine.climbWords levelsUp scope, ¬ E.patched y) :
    Prepares host s E (.written .position tag (start ++ climb ++ store)) (do
      let scope ← Meaning.value E.machine ⟨.relative, scopeSlot⟩
      let record ← E.machine.climb levelsUp scope
      return ⟨.position, record + (Heap.recordHeader + index : Nat)⟩) := by
  suffices h : Prepares host s E (.written .position tag (start ++ climb ++ store)) (do
      let address ← (do
        let scope ← Meaning.value E.machine ⟨.relative, scopeSlot⟩
        let record ← E.machine.climb levelsUp scope
        return record + (Heap.recordHeader + index : Nat))
      return ⟨.position, address⟩) by
    simpa only [bind_assoc, pure_bind] using h
  refine .written .position htag fun {a c m} hcode haddress hlt hpatched hout hm hip => ?_
  rw [codeAt_append, codeAt_append] at hcode
  obtain ⟨⟨hcode₁, hcode₂⟩, hcode₃⟩ := hcode
  rw [Item.size_append] at hcode₃
  rw [Item.size_append, Item.size_append] at hout ⊢
  have hout₂ : ¬ Span (a + Item.size start) (Item.size climb) c := fun hs =>
    hout (by unfold Span at hs ⊢; omega)
  have hout₃ : ¬ Span (a + (Item.size start + Item.size climb)) (Item.size store) c := fun hs =>
    hout (by unfold Span at hs ⊢; omega)
  -- the scope pointer is copied into the word
  have hslot : Prepares host s E (.fixed .relative (.plain (.num scopeSlot))) (.ok ⟨.relative, scopeSlot⟩) :=
    .plain .relative (.num scopeSlot)
  have hclear : E.Clear (.ok ⟨.relative, scopeSlot⟩) := by
    intro x hx
    cases hx
    exact hscope
  refine (copied_stored haddress hlt hm hip hstart hslot hclear hcode₁).bind fun scope m₁ hvalue h₁ => ?_
  have hm₁ := h₁.agrees hpatched
  -- parents are followed in it
  refine (climb_runs haddress hlt hpatched hclimb hcode₂ hout₂ hm₁ h₁.ip_eq h₁.get_eq (hwords scope hvalue)).bind ?_
  rintro record m₂ - ⟨hrecord, hip₂, hm₂, hkept₂⟩
  -- and the offset of the slot is added to it
  have haddress' : (E.reveal m₂ c).addresses[tag.index]? = some c := haddress
  have hsum : Prepares host s (E.reveal m₂ c) (.written .immediate add (Lowered.instruction .add
      [.fixed .immediate (.plain (.num (Heap.recordHeader + index : Nat))), .wordAt tag, .wordAt add]))
      (.ok ⟨.immediate, record + (Heap.recordHeader + index : Nat)⟩) := by
    have hfirst : (E.reveal m₂ c).first ≤ add.index := hadd
    have hheader : Prepares host s (E.reveal m₂ c)
        (.fixed .immediate (.plain (.num (Heap.recordHeader + index : Nat)))) _ := .plain .immediate _
    have h := Prepares.added .immediate hfirst hheader (.wordAt haddress') (clear_reveal hlt)
    rw [ok_bind, ok_bind, value_reveal hlt hrecord, ok_bind] at h
    rwa [Int.add_comm]
  rw [Nat.add_assoc] at hip₂
  have hfinal := replaced_stored haddress hlt hm₂ hip₂ hstore hsum (clear_immediate _ _)
    hcode₃ hout₃
  refine hfinal.mono (fun v m₃ h₃ => ?_) fun _ h => h
  exact ⟨h₃.get_eq, by rw [h₃.ip_eq, Nat.add_assoc], h₃.agrees hpatched, (h₁.kept.append hkept₂).append h₃.kept⟩

/-! ## Lowering keeps the meaning -/

theorem clear_meaning {resolve : String → Option Resolution} {o : Operand}
    (h : ∀ y ∈ o.valueWords E.addresses resolve E.machine, ¬ E.patched y) :
    E.Clear (o.meaning E.addresses resolve E.machine) := by
  intro x hx y hy
  refine h y ?_
  rw [Operand.valueWords, hx]
  exact hy

/-- A lowered operand holds what the operand means, if the code does not write the words that are read for it. -/
theorem prepares_meaning {t : ScopeTable} {site : Site} {o : Operand} {l : Lowered}
    (hl : Emit.EmitsFrom E.first t site (Emit.lower o) l) (hlabels : ∀ r ∈ o.labels, r.index < E.first)
    (hwords : ∀ y ∈ o.words E.addresses (t.resolve site.scope) E.machine, ¬ E.patched y) :
    Prepares host s E l (o.meaning E.addresses (t.resolve site.scope) E.machine) := by
  induction o generalizing l with
  | const mode cell =>
    obtain rfl := hl.pure
    exact .const mode hlabels
  | offset base amount ihbase ihamount =>
    obtain ⟨lb, hlb, hl⟩ := hl.bind (Emit.Moves.lower _)
    obtain ⟨la, hla, hl⟩ := hl.bind (Emit.Moves.lower _)
    simp only [Operand.labels, Operand.words, List.mem_append, or_imp, forall_and] at hlabels hwords
    have hb := ihbase hlb hlabels.1 hwords.1.1
    have ha := ihamount hla hlabels.2 hwords.1.2
    rw [Operand.meaning]
    rcases hl.offsetLowered with ⟨hbf, haf, him, hbl, hal, rfl⟩ | ⟨tag, htag, rfl⟩
    · -- both words are known to the linker
      rw [hb.eq_of_fixed hbf hbl, ha.eq_of_fixed haf hal, him]
      exact .sum lb.mode _ _
    · -- the sum is made by code, in the mode of the base
      have h := Prepares.added lb.mode htag hb ha (clear_meaning hwords.2)
      cases hx : base.meaning E.addresses (t.resolve site.scope) E.machine with
      | error e => rwa [hx] at h
      | ok x =>
        rw [hx] at h
        rwa [ok_bind, hb.mode_eq hx]
  | deref pointer ih =>
    obtain ⟨lp, hlp, hl⟩ := hl.bind (Emit.Moves.lower _)
    simp only [Operand.words, List.mem_append, or_imp, forall_and] at hwords
    obtain ⟨-, tag, htag, setup, hsetup, rfl⟩ := hl.derefLowered
    exact .copied .immediate hsetup htag (ih hlp hlabels hwords.1) (clear_meaning hwords.2)
  | relabel mode o ih =>
    obtain ⟨lo, hlo, hl⟩ := hl.bind (Emit.Moves.lower _)
    obtain ⟨-, rfl⟩ := hl.relabelLowered
    exact (ih hlo hlabels hwords).withMode mode
  | spill slot ih =>
    obtain ⟨ls, hls, hl⟩ := hl.bind (Emit.Moves.lower _)
    simp only [Operand.words, List.mem_append, or_imp, forall_and] at hwords
    obtain ⟨-, tag, htag, setup, hsetup, rfl⟩ := hl.spillLowered
    exact .copied .position hsetup htag (ih hls hlabels hwords.1) (clear_meaning hwords.2)
  | var name scopeSlot =>
    rw [Operand.words] at hwords
    rw [Operand.meaning]
    rcases hl.varLowered with ⟨location, index, hresolve, rfl⟩ |
      ⟨levelsUp, index, tag, start, climb, add, store, hresolve, htag, hadd, hstart, hclimb, hstore, rfl⟩
    · simp only [hresolve]
      exact .sum .position (.addr location) (.num (Heap.recordHeader + index : Nat))
    · simp only [hresolve, List.mem_append, or_imp, forall_and] at hwords ⊢
      refine .dynamic htag hadd hstart hclimb hstore hwords.1 fun scope hscope => ?_
      have hclimbed := hwords.2
      rwa [hscope] at hclimbed

theorem prepares_all {t : ScopeTable} {site : Site} {os : List Operand} {ls : List Lowered}
    (hls : Emit.EmitsFrom E.first t site (Emit.lowerAll os) ls)
    (hlabels : ∀ o ∈ os, ∀ r ∈ o.labels, r.index < E.first)
    (hwords : ∀ o ∈ os, ∀ y ∈ o.words E.addresses (t.resolve site.scope) E.machine, ¬ E.patched y) :
    List.Forall₂ (Prepares host s E) ls
      (os.map (Operand.meaning E.addresses (t.resolve site.scope) E.machine)) := by
  induction os generalizing ls with
  | nil =>
    obtain rfl := hls.pure
    exact .nil
  | cons o os ih =>
    obtain ⟨l, rest, hl, hrest, rfl⟩ := hls.lowerAll_cons
    rw [List.forall_mem_cons] at hlabels hwords
    exact .cons (prepares_meaning hl hlabels.1 hwords.1) (ih hrest hlabels.2 hwords.2)

/-! ## Requests -/

section

variable {t : ScopeTable} {site : Site} {items : List Item} {a here : Nat} {m : Machine}

/-- The code of a request does what the request means on the machine that enters the code. -/
theorem performs_action {r : Request} (hitems : Emit.EmitsFrom E.first t site r.emit items)
    (hlabels : ∀ o ∈ r.sources ++ r.targets, ∀ l ∈ o.labels, l.index < E.first)
    (hwords : ∀ y ∈ r.words E.addresses (t.resolve site.scope) E.machine, ¬ E.patched y) (hcode : E.CodeAt a items)
    (hm : E.Agrees m) (hip : m.ip = .ofNat a) (hhere : here + r.size = a + Item.size items) :
    Performs host s E (Span a (Item.size items)) here (here + r.size) m
      (r.action E.addresses (t.resolve site.scope) E.machine here) := by
  let meaning := Operand.meaning E.addresses (t.resolve site.scope) E.machine
  have hclear : ∀ o ∈ r.sources, E.Clear (meaning o) := fun o ho => clear_meaning fun y hy =>
    hwords y (List.mem_append_right _ (List.mem_flatMap.2 ⟨o, ho, hy⟩))
  have hread : ∀ o ∈ r.sources ++ r.targets, ∀ y ∈ o.words E.addresses (t.resolve site.scope) E.machine,
      ¬ E.patched y := fun o ho y hy => hwords y (List.mem_append_left _ (List.mem_flatMap.2 ⟨o, ho, hy⟩))
  have hlowered : ∀ {op : Opcode} {os : List Operand}, Emit.EmitsFrom E.first t site (Emit.instruction op os) items →
      os ⊆ r.sources ++ r.targets → ∃ ls, List.Forall₂ (Prepares host s E) ls (os.map meaning) ∧
        items = Lowered.instruction op ls := by
    intro op os hitems hos
    obtain ⟨ls, hls, hitems⟩ := hitems.instruction
    exact ⟨ls, prepares_all hls (fun o ho => hlabels o (hos ho)) fun o ho => hread o (hos ho), hitems⟩
  cases r with
  | add x y out | mult x y out | lessThan x y out | equals x y out =>
    obtain ⟨ls, hls, rfl⟩ := hlowered hitems (List.Subset.refl [x, y, out])
    exact performs_combined rfl hls (hclear x (.head _)) (hclear y (.tail _ (.head _))) hcode hm hip hhere
  | readTo out =>
    obtain ⟨ls, hls, rfl⟩ := hlowered hitems (List.Subset.refl [out])
    refine performs_single hls (fun x m' hx hready => ?_) hcode hm hip hhere
    exact hready.step_read
  | write value =>
    obtain ⟨ls, hls, rfl⟩ := hlowered hitems (List.Subset.refl [value])
    refine performs_single hls (fun x m' hx hready => ?_) hcode hm hip hhere
    exact hready.step_write (hclear value (.head _) x hx)
  | jumpIfTrue cond target =>
    have hjump : Emit.EmitsFrom E.first t site (Emit.instruction (jumpOn false) [cond, target]) items := hitems
    obtain ⟨ls, hls, rfl⟩ := hlowered hjump (List.Subset.refl [cond, target])
    exact performs_branched hls (hclear cond (.head _)) (hclear target (.tail _ (.head _))) hcode hm hip hhere
  | jumpIfFalse cond target =>
    have hjump : Emit.EmitsFrom E.first t site (Emit.instruction (jumpOn true) [cond, target]) items := hitems
    obtain ⟨ls, hls, rfl⟩ := hlowered hjump (List.Subset.refl [cond, target])
    exact performs_branched hls (hclear cond (.head _)) (hclear target (.tail _ (.head _))) hcode hm hip hhere
  | adjustBase amount =>
    obtain ⟨ls, hls, rfl⟩ := hlowered hitems (List.Subset.refl [amount])
    refine performs_single hls (fun x m' hx hready => ?_) hcode hm hip hhere
    exact hready.step_adjustBase (hclear amount (.head _) x hx)
  | copy source target =>
    obtain ⟨ls, lt, hls, hlt, hforms⟩ := Emit.EmitsFrom.copy hitems
    have hsource : Prepares host s E ls (meaning source) :=
      prepares_meaning hls (hlabels source (.head _)) (hread source (.head _))
    have htarget : Prepares host s E lt (meaning target) :=
      prepares_meaning hlt (hlabels target (.tail _ (.head _))) (hread target (.tail _ (.head _)))
    exact performs_copied hforms hsource htarget (hclear source (.head _)) hcode hm hip hhere

end

end Entry

/-! ## Linked code -/

/-- The word at `x` belongs to items that stand at `a`, and a label stands for it that was handed out only after the
first `first` ones. -/
def Item.Patched (first a : Nat) (items : List Item) (x : Nat) : Prop :=
  ∃ k c, (cells items)[k]? = some c ∧ x = a + k ∧ ∃ l ∈ c.labels, first ≤ l.index

namespace Assembly

theorem Holds.cell {asm : Assembly} {a : Nat} {items : List Item} (h : asm.Holds a items) {k : Nat} {c : Cell}
    (hk : (Item.cells items)[k]? = some c) : asm.HoldsCell (a + k) c := by
  induction items generalizing a k with
  | nil => cases hk
  | cons x items ih =>
    cases x with
    | hanging l => exact ih h.2 hk
    | cell c' =>
      cases k with
      | zero =>
        cases hk
        exact h.1
      | succ k =>
        rw [show a + (k + 1) = a + 1 + k by omega]
        exact ih h.2 hk

theorem value_eq_of_evaluate {t : Addresses} {w : Word} {v : Int} (h : evaluate t w = .ok v) :
    w.value (addressIn t) = v := by
  rw [evaluate_eq addressIn_eq] at h
  cases hmissing : missing? t w.refs with
  | none =>
    rw [hmissing] at h
    exact Except.ok.inj h
  | some l =>
    rw [hmissing] at h
    cases h

/-- Where items were linked, there they are entered. -/
theorem codeAt_of_link {table : LabelTable} {before items after : List Item} {asm : Assembly}
    (hlink : link table (before ++ items ++ after) = .ok asm) (hsize : asm.size ≤ Memory.addressLimit) {m : Machine}
    (hip : m.ip.toNat = Item.size before) (hloaded : ∀ k c, (Item.cells items)[k]? = some c → c.labels = [] →
      asm.words[m.ip.toNat + k]? = some (m.memory.get (m.ip.toNat + k))) (first : Nat) :
    (Entry.mk asm.addresses first m (Item.Patched first m.ip.toNat items)).CodeAt m.ip.toNat items := by
  obtain ⟨hholds, -, -⟩ := link_holds hlink
  rw [holds_append, holds_append, Nat.zero_add, ← hip] at hholds
  intro k c hk
  have hcell := hholds.1.2.cell hk
  obtain ⟨v, hv, hword⟩ := hcell.word
  refine ⟨?_, hcell.address, ⟨?_, fun h => ⟨k, c, hk, rfl, h⟩⟩, fun hplain => ?_⟩
  · exact Nat.lt_of_lt_of_le (List.getElem?_eq_some_iff.1 hword).1 hsize
  · rintro ⟨k', c', hk', heq, h⟩
    obtain rfl : k = k' := by omega
    obtain rfl : c = c' := Option.some.inj (hk.symm.trans hk')
    exact h
  · rw [value_eq_of_evaluate hv]
    exact Option.some.inj ((hloaded k c hk hplain).symm.trans hword)

end Assembly

/-- The instruction itself is the end of the code. -/
theorem Request.size_le {n : Nat} {t : ScopeTable} {site : Site} {r : Request} {items : List Item}
    (h : Emit.EmitsFrom n t site r.emit items) : r.size ≤ Item.size items := by
  have hsize : ∀ {op : Opcode} {os : List Operand}, Emit.EmitsFrom n t site (Emit.instruction op os) items →
      os.length + 1 ≤ Item.size items := by
    intro op os h
    obtain ⟨ls, hls, rfl⟩ := h.instruction
    rw [Lowered.size_instruction, hls.length_lowerAll]
    omega
  cases r with
  | copy source target =>
    obtain ⟨ls, lt, -, -, hforms⟩ := Emit.EmitsFrom.copy h
    exact Emit.four_le_size hforms
  | _ => exact hsize h

/-- Code that was written for a request, linked anywhere and loaded, does what the request means on the machine that
comes to it: without the host, the machine gets in front of the instruction, where everything is as it was, except for
words of the code under labels of its own, and there it does what the action says. If the action is a fault, the machine
runs into this fault instead. The request must not read the words that its code writes. -/
theorem Request.runs_as_meant {r : Request} {site : Site} {s s' : EmitState} {items : List Item}
    (hemit : r.emit.runAt site s = (.ok items, s'))
    (hlabels : ∀ o ∈ r.sources ++ r.targets, ∀ l ∈ o.labels, l.index < s.labels.size)
    {table : LabelTable} {before after : List Item} {asm : Assembly}
    (hlink : link table (before ++ items ++ after) = .ok asm) (hsize : asm.size ≤ Memory.addressLimit)
    {m : Machine} (hip : m.ip.toNat = Item.size before)
    (hloaded : ∀ k c, (Item.cells items)[k]? = some c → c.labels = [] →
      asm.words[m.ip.toNat + k]? = some (m.memory.get (m.ip.toNat + k)))
    (hwords : ∀ x ∈ r.words asm.addresses (s.scopes.resolve site.scope) m,
      ¬ Item.Patched s.labels.size m.ip.toNat items x)
    {σ : Type} (host : Host σ) (q : σ) :
    ∃ here finish m', here + r.size = finish ∧ finish = m.ip.toNat + Item.size items ∧
      Reaches host (m, q) (m', q) ∧ m'.base = m.base ∧ m'.status = m.status ∧
      (∀ x, ¬ Item.Patched s.labels.size m.ip.toNat items x → m'.memory.get x = m.memory.get x) ∧
      let action := r.action asm.addresses (s.scopes.resolve site.scope) m here
      m'.step host q = m'.meet host q (Action.demanded finish m' action) ∧
      ((∃ e, action = .ok e) → m'.ip.toNat = here) := by
  let E : Entry := ⟨asm.addresses, s.labels.size, m, Item.Patched s.labels.size m.ip.toNat items⟩
  have hcode : E.CodeAt m.ip.toNat items := codeAt_of_link hlink hsize hip hloaded s.labels.size
  have hitems : Emit.EmitsFrom E.first s.scopes site r.emit items := .of_runAt hemit
  obtain ⟨here, hhere⟩ : ∃ here, here + r.size = m.ip.toNat + Item.size items :=
    ⟨m.ip.toNat + Item.size items - r.size, Nat.sub_add_cancel (Nat.le_trans (size_le hitems) (Nat.le_add_left _ _))⟩
  have hperforms : Entry.Performs host q E _ here (here + r.size) m _ :=
    E.performs_action hitems hlabels hwords hcode E.agrees_self UInt64.ofNat_toNat.symm hhere
  obtain ⟨m', hreach, hm', hstep, hready⟩ := hperforms
  exact ⟨here, _, m', rfl, hhere, hreach, hm'.base, hm'.status, hm'.memory, hstep, fun he => (hready he).1⟩

/-! ## A variable one record up -/

namespace Request

/-- The variable is copied to a slot whose number is in a word that other code writes. -/
def climbing : Request :=
  .copy (.named "n") (.offset (.patched .relative ⟨5⟩) (.rel 1))

/-- The label of the word has been handed out, and the name belongs to the scope around the innermost one. -/
def climbingState : EmitState :=
  ⟨(LabelTable.reserved.fresh "slot").2, (((ScopeTable.initial.child ScopeTable.globals).2.bind 2 "n").child 2).2,
    .first⟩

/-- Two records, the scope pointer in front of the frame, and the frame. -/
def climbingData : List Item :=
  [31, 0, 0, 77, 29, 0, 0, 4, 0, 0].map fun n => .word (.num n)

/-- The machine in front of the code, behind one word. -/
def climbingMachine (asm : Assembly) : Machine :=
  { Machine.ofWords asm.words with ip := 1, base := 35 }

theorem runs_as_meant_climbing : ∃ items s' asm m',
    climbing.emit.runAt ⟨3, .generated⟩ climbingState = (.ok items, s') ∧
      link ⟨#[]⟩ ([.word (.num 99)] ++ items ++ climbingData) = .ok asm ∧
      Reaches Queue.host (climbingMachine asm, .ofInputs []) (m', .ofInputs []) ∧ m'.ip = 25 ∧
      m'.step Queue.host (.ofInputs []) =
        (.ok .proceed, { m' with memory := m'.memory.set 39 77, ip := 29 }, .ofInputs []) := by
  let resolve := climbingState.scopes.resolve 3
  have htest : (climbing.emit.runAt ⟨3, .generated⟩ climbingState).1.toOption.any (fun items =>
      Item.size items == 28 && (link ⟨#[]⟩ ([.word (.num 99)] ++ items ++ climbingData)).toOption.any fun asm =>
        asm.words.length == 39 && climbing.words asm.addresses resolve (climbingMachine asm) == [33, 29, 36, 32] &&
        climbing.action asm.addresses resolve (climbingMachine asm) 25 == .ok (.store 39 77)) = true := by
    decide +kernel
  obtain ⟨items, hitems, htest⟩ := exists_ok_of_any htest
  rw [Bool.and_eq_true] at htest
  obtain ⟨hsize, htest⟩ := htest
  obtain ⟨asm, hasm, htest⟩ := exists_ok_of_any htest
  simp only [Bool.and_eq_true, beq_iff_eq] at hsize htest
  obtain ⟨⟨hlength, hwords⟩, haction⟩ := htest
  have hemit : climbing.emit.runAt ⟨3, .generated⟩ climbingState = (.ok items, _) := Prod.ext hitems rfl
  have hloaded : ∀ k c, (Item.cells items)[k]? = some c → c.labels = [] →
      asm.words[1 + k]? = some ((Memory.ofWords asm.words).get (1 + k)) := by
    intro k c hk _
    have hlt := (List.getElem?_eq_some_iff.1 hk).1
    rw [Item.length_cells, hsize] at hlt
    rw [Memory.get_ofWords, List.getElem?_eq_getElem (by omega), Option.getD_some]
  have hclear : ∀ x ∈ climbing.words asm.addresses resolve (climbingMachine asm),
      ¬ Item.Patched climbingState.labels.size 1 items x := by
    rw [hwords]
    rintro x hx ⟨k, c, hk, rfl, -⟩
    have hlt := (List.getElem?_eq_some_iff.1 hk).1
    rw [Item.length_cells, hsize] at hlt
    simp only [List.mem_cons, List.not_mem_nil, or_false] at hx
    omega
  have hfits : asm.size ≤ Memory.addressLimit := by
    rw [Assembly.size, hlength]
    decide
  obtain ⟨here, finish, m', hhere, hfinish, hreach, -, -, -, hstep, hip⟩ :=
    runs_as_meant (m := climbingMachine asm) hemit (by decide) hasm hfits rfl hloaded hclear Queue.host (.ofInputs [])
  obtain rfl : finish = 29 := by rw [hfinish, hsize]; rfl
  obtain rfl : here = 25 := by
    change here + 4 = 25 + 4 at hhere
    omega
  refine ⟨items, _, asm, m', hemit, hasm, hreach, UInt64.toNat_inj.1 (hip ⟨_, haction⟩), ?_⟩
  rw [hstep]
  change m'.meet Queue.host _
    (Action.demanded 29 m' (climbing.action asm.addresses resolve (climbingMachine asm) 25)) = _
  rw [haction]
  rfl

end Request

end Lamcode
