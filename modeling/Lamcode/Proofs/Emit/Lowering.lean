import Lamcode.Proofs.Emit.Coupled
import Lamcode.Proofs.Emit.Template
import Lamcode.Proofs.Scope.Visible

/-!
# Lamcode.Proofs.Emit.Lowering — operands written twice

An operand whose modes fit (`Operand.mode?`) fails to be lowered for a name that does not resolve, and for nothing
else. Lowered twice with different choices it comes out with the same word, and with code in front of it that is an
instance of one template (`TwinOperand`). The account of its labels is kept on the way, so nothing about labels is
left to be shown where the operand is used.
-/

namespace Lamcode

/-! ## Names that do not resolve -/

/-- The error for the first use of a name that does not resolve where it is used. -/
def ScopeTable.missing (t : ScopeTable) (uses : List (Site × String)) : Option EmitError :=
  (uses.find? fun u => (t.resolve u.1.scope u.2).isNone).map fun u => .unresolved u.2 u.1.pos

namespace ScopeTable

variable {t : ScopeTable}

@[simp] theorem missing_nil : t.missing [] = none := rfl

@[simp] theorem missing_append (us vs : List (Site × String)) :
    t.missing (us ++ vs) = (t.missing us).or (t.missing vs) := by
  unfold missing
  rw [List.find?_append]
  rcases us.find? _ with _ | u <;> rfl

theorem missing_eq_none {us : List (Site × String)} :
    t.missing us = none ↔ ∀ u ∈ us, ∃ r, t.resolve u.1.scope u.2 = some r := by
  simp [missing, Option.ne_none_iff_exists']

/-- A fixed address that a name resolves to is that of a record. -/
theorem exists_location {name : String} {s : Nat} {location : Label} {offset : Nat}
    (h : t.resolve s name = some (.fixed location offset)) : ∃ s', (t.get s').location = some location := by
  unfold resolve at h
  generalize t.size = limit at h
  induction limit generalizing s with
  | zero => cases h
  | succ limit ih =>
    rcases hoffset : (t.get s).names.idxOf? name with _ | i
    · rcases hparent : (t.get s).parent with _ | outer
      · rw [resolveWithin_outermost hoffset hparent] at h
        cases h
      · rw [resolveWithin_outer hoffset hparent] at h
        obtain ⟨r, hr, heq⟩ := Option.map_eq_some_iff.1 h
        cases r with
        | fixed l o =>
          cases heq
          exact ih hr
        | dynamic levelsUp o => cases heq
    · rw [resolveWithin_here hoffset] at h
      unfold Scope.slot at h
      split at h
      · next l hl =>
        cases h
        exact ⟨s, hl⟩
      · cases h

theorem Grounded.index_lt (ht : t.Grounded) {name : String} {s : Nat} {location : Label} {offset : Nat}
    (h : t.resolve s name = some (.fixed location offset)) : location.index < LabelTable.reserved.size := by
  obtain ⟨s', hs'⟩ := exists_location h
  exact ht hs'

end ScopeTable

/-! ## Operands whose modes fit -/

namespace Operand

/-- The labels that an operand's constant words carry. -/
def labels : Operand → List Label
  | .const _ cell => cell.labels
  | .offset base amount => base.labels ++ amount.labels
  | .deref o | .relabel _ o | .spill o => o.labels
  | .var _ _ => []

/-- The labels that an operand's constant words mention. -/
def refs : Operand → List Label
  | .const _ cell => cell.word.refs
  | .offset base amount => base.refs ++ amount.refs
  | .deref o | .relabel _ o | .spill o => o.refs
  | .var _ _ => []

/-- The mode of an operand that can be lowered: what is pointed at is an address, what is spilled is a slot, a mode is
changed to another one, and words that are computed with carry no labels. In sums only reserved labels are allowed. -/
def mode? : Operand → Option Mode
  | .const mode cell => if cell.word.folded.all (·.index < LabelTable.reserved.size) then some mode else none
  | .offset base amount =>
    if base.labels.isEmpty && amount.labels.isEmpty && amount.mode?.isSome &&
      (base.refs ++ amount.refs).all (·.index < LabelTable.reserved.size) then base.mode? else none
  | .deref o => if o.labels.isEmpty && o.mode? == some .position then some .immediate else none
  | .relabel mode o =>
    if o.labels.isEmpty && o.mode?.isSome && o.mode? != some mode then some mode else none
  | .spill o => if o.labels.isEmpty && o.mode? == some .relative then some .position else none
  | .var _ _ => some .position

end Operand

/-! ## Twins -/

/-- The two pieces of code are instances of one template with this account. -/
def Twins (labels : List Label) (m : Nat) (xs ys : List Item) : Prop :=
  ∃ T, Accounts labels m T ∧ Instance T xs ∧ Instance T ys

/-- The two lowered operands have the same word, which belongs to the account of the code in front of them. -/
structure TwinOperand (labels : List Label) (m : Nat) (l l' : Lowered) : Prop where
  word_eq : l'.word = l.word
  isFixed_eq : l'.isFixed = l.isFixed
  setup : ∃ S, Accounts labels m (S ++ [.item (.cell l.cell)]) ∧ Instance S l.setup ∧ Instance S l'.setup

/-- The lowered operands have the same words, which belong to the account of all the code in front of them. -/
structure TwinOperands (labels : List Label) (m : Nat) (ls ls' : List Lowered) : Prop where
  words_eq : ls'.map Lowered.word = ls.map Lowered.word
  setup : ∃ S, Accounts labels m (S ++ .ofItems (ls.map fun l => .cell l.cell)) ∧
    Instance S (ls.flatMap (·.setup)) ∧ Instance S (ls'.flatMap (·.setup))

namespace Twins

variable {labels labels' : List Label} {m m' : Nat} {xs xs' ys ys' : List Item}

theorem append (h : Twins labels m xs ys) (k : Twins labels' m xs' ys') :
    Twins (labels ++ labels') m (xs ++ xs') (ys ++ ys') := by
  obtain ⟨S, hS, hxs, hys⟩ := h
  obtain ⟨T, hT, hxs', hys'⟩ := k
  exact ⟨S ++ T, hS.append hT, hxs.append hxs', hys.append hys'⟩

/-- Code without choices. -/
theorem refl (items : List Item) (hrefs : ∀ l ∈ Item.refs items, l.index < m)
    (hfolded : ∀ l ∈ Item.folded items, l.index < LabelTable.reserved.size) :
    Twins (Item.labels items) m items items :=
  ⟨_, .ofItems items hrefs hfolded, .ofItems items, .ofItems items⟩

theorem nil (m : Nat) : Twins [] m [] [] :=
  ⟨[], .nil m, .nil, .nil⟩

theorem mono (h : Twins labels m xs ys) (hm : m ≤ m') : Twins labels m' xs ys := by
  obtain ⟨T, hT, hxs, hys⟩ := h
  exact ⟨T, hT.mono hm, hxs, hys⟩

theorem perm (h : Twins labels m xs ys) (hlabels : labels.Perm labels') : Twins labels' m xs ys := by
  obtain ⟨T, hT, hxs, hys⟩ := h
  exact ⟨T, hT.perm hlabels, hxs, hys⟩

end Twins

/-- A copy of operands that need code is that code and a copy of their words. -/
theorem Emit.exists_of_mem_copyForms {source target : Lowered} {items : List Item}
    (h : items ∈ copyForms source target) :
    ∃ form ∈ copyForms source.word.lowered target.word.lowered, items = source.setup ++ target.setup ++ form := by
  simp only [copyForms, List.mem_cons, List.not_mem_nil, or_false] at h
  rcases h with rfl | rfl | rfl | rfl
  all_goals
    refine ⟨_, ?_, by simp [Lowered.instruction, Lowered.fixed]; rfl⟩
    simp [copyForms, Lowered.instruction, Lowered.word, OperandWord.lowered, Lowered.fixed]

namespace TwinOperand

variable {labels labels' : List Label} {m m' : Nat} {l l' : Lowered}

theorem mode_eq (h : TwinOperand labels m l l') : l'.mode = l.mode :=
  congrArg OperandWord.mode h.word_eq

theorem mono (h : TwinOperand labels m l l') (hm : m ≤ m') : TwinOperand labels m' l l' := by
  obtain ⟨S, hS, hl, hl'⟩ := h.setup
  exact ⟨h.word_eq, h.isFixed_eq, S, hS.mono hm, hl, hl'⟩

theorem perm (h : TwinOperand labels m l l') (hlabels : labels.Perm labels') : TwinOperand labels' m l l' := by
  obtain ⟨S, hS, hl, hl'⟩ := h.setup
  exact ⟨h.word_eq, h.isFixed_eq, S, hS.perm hlabels, hl, hl'⟩

theorem cell_eq (h : TwinOperand labels m l l') : l'.cell = l.cell :=
  congrArg OperandWord.cell h.word_eq

/-- An operand without labels of its own carries none. -/
theorem labels_eq_nil (h : TwinOperand labels m l l') (hsetup : l.setup = []) (hcell : l.cell.labels = []) :
    labels = [] := by
  obtain ⟨S, hS, hl, -⟩ := h.setup
  rw [hsetup] at hl
  have hlabels := hS.labels_perm
  rw [Template.items_append, Item.labels_append, (List.nil_perm.1 hl.labels_perm)] at hlabels
  simpa [Template.items, Segment.items, Item.labels, Item.carried, hcell] using hlabels

/-- The mode of an operand is not part of its account. -/
theorem withMode (h : TwinOperand labels m l l') (mode : Mode) :
    TwinOperand labels m { l with mode } { l' with mode } := by
  refine ⟨?_, h.isFixed_eq, h.setup⟩
  rw [Lowered.word, Lowered.word, h.cell_eq]

/-- A word that needs no code. -/
theorem fixed (mode : Mode) (cell : Cell) (hrefs : ∀ r ∈ cell.word.refs, r.index < m)
    (hfolded : ∀ r ∈ cell.word.folded, r.index < LabelTable.reserved.size) :
    TwinOperand cell.labels m (.fixed mode cell) (.fixed mode cell) := by
  refine ⟨rfl, rfl, [], ?_, .nil, .nil⟩
  have haccount : Accounts (Item.labels [.cell cell]) m (.ofItems [.cell cell]) :=
    .ofItems _ (by simpa [Item.refs, Item.mentioned] using hrefs)
      (by simpa [Item.folded, Item.summed] using hfolded)
  rwa [show Item.labels [.cell cell] = cell.labels from List.append_nil _] at haccount

theorem wordAt {tag : Label} (h : tag.index < m) : TwinOperand [] m (.wordAt tag) (.wordAt tag) :=
  fixed .position (.plain (.addr tag)) (by simpa [Cell.plain, Word.refs] using h)
    (by simp [Cell.plain, Word.folded])

theorem number (mode : Mode) (k : Int) :
    TwinOperand [] m (.fixed mode (.plain (.num k))) (.fixed mode (.plain (.num k))) :=
  fixed mode (.plain (.num k)) (by simp [Cell.plain, Word.refs]) (by simp [Cell.plain, Word.folded])

/-- A word that the code in front of it writes, under a label of its own. -/
theorem written {items items' : List Item} (mode : Mode) (tag : Label) (h : Twins labels m items items') :
    TwinOperand (labels ++ [tag]) m (.written mode tag items) (.written mode tag items') := by
  obtain ⟨T, hT, hitems, hitems'⟩ := h
  exact ⟨rfl, rfl, T, hT.append (.ofItems [.labeled (.num 0) tag] (by simp [Item.refs, Item.mentioned,
    Item.labeled, Cell.labeled, Word.refs]) (by simp [Item.folded, Item.summed, Item.labeled, Cell.labeled,
    Word.folded])), hitems, hitems'⟩

/-- Two copies are encodings of one copy, whose source is the only word that they put at different places. -/
theorem copy {source source' target target' : Lowered} {items items' : List Item}
    (hsource : TwinOperand labels m source source') (htarget : TwinOperand labels' m target target')
    (hlabels : ∀ r ∈ labels, LabelTable.reserved.size ≤ r.index)
    (hitems : items ∈ Emit.copyForms source target) (hitems' : items' ∈ Emit.copyForms source' target') :
    Twins (labels ++ labels') m items items' := by
  obtain ⟨form, hform, rfl⟩ := Emit.exists_of_mem_copyForms hitems
  obtain ⟨form', hform', rfl⟩ := Emit.exists_of_mem_copyForms hitems'
  rw [hsource.word_eq, htarget.word_eq] at hform'
  obtain ⟨S, hS, hsetup, hsetup'⟩ := hsource.setup
  obtain ⟨S', hS', htarget, htarget'⟩ := htarget.setup
  refine ⟨S ++ S' ++ [.choice (.copy source.word target.word)], ?_,
    (hsetup.append htarget).append (.of_form (.copy hform)),
    (hsetup'.append htarget').append (.of_form (.copy hform'))⟩
  have hparts : Accounts (labels ++ labels') m
      (S ++ S' ++ .ofItems [.cell source.cell, .cell target.cell]) := by
    refine (hS.append hS').reorder ?_
    rw [List.append_assoc, List.append_assoc]
    exact List.perm_middle.append_left S
  refine hparts.choose _ (fun {f} hf => ?_) fun r hr => hlabels r ?_
  · have hplain : ∀ k, f (.cell (.plain (.num k))) = [] := hf
    simp [Operation.first, Lowered.instruction, OperandWord.lowered, Lowered.fixed, Lowered.word, hf, hplain]
  · have hcell : r ∈ source.cell.labels := hr
    refine hS.labels_perm.subset ?_
    rw [Template.items_append, Item.labels_append]
    refine List.mem_append_right _ ?_
    simpa [Template.items, Segment.items, Item.labels, Item.carried] using hcell

end TwinOperand

namespace TwinOperands

variable {labels labels' : List Label} {m : Nat} {l l' : Lowered} {ls ls' : List Lowered}

theorem nil (m : Nat) : TwinOperands [] m [] [] :=
  ⟨rfl, [], .nil m, .nil, .nil⟩

theorem cons (hl : TwinOperand labels m l l') (hls : TwinOperands labels' m ls ls') :
    TwinOperands (labels ++ labels') m (l :: ls) (l' :: ls') := by
  obtain ⟨S, hS, hsetup, hsetup'⟩ := hl.setup
  obtain ⟨S', hS', hrest, hrest'⟩ := hls.setup
  refine ⟨by rw [List.map_cons, List.map_cons, hl.word_eq, hls.words_eq], S ++ S', ?_, hsetup.append hrest,
    hsetup'.append hrest'⟩
  refine (hS.append hS').reorder ?_
  rw [List.append_assoc, List.append_assoc]
  exact List.perm_middle.append_left S

theorem perm (h : TwinOperands labels m ls ls') (hlabels : labels.Perm labels') :
    TwinOperands labels' m ls ls' := by
  obtain ⟨S, hS, hls, hls'⟩ := h.setup
  exact ⟨h.words_eq, S, hS.perm hlabels, hls, hls'⟩

theorem instruction (h : TwinOperands labels m ls ls') (op : Opcode) :
    Twins labels m (Lowered.instruction op ls) (Lowered.instruction op ls') := by
  obtain ⟨S, hS, hls, hls'⟩ := h.setup
  have hmodes : ls'.map (·.mode) = ls.map (·.mode) := by
    simpa [Function.comp_def, Lowered.word] using congrArg (List.map OperandWord.mode) h.words_eq
  have hcells : ls'.map (fun l => Item.cell l.cell) = ls.map (fun l => .cell l.cell) := by
    simpa [Function.comp_def, Lowered.word] using congrArg (List.map fun w => Item.cell w.cell) h.words_eq
  let word : Item := .word (.num (Instruction.encode op (ls.map (·.mode))))
  have hword : Accounts [] m (.ofItems [word]) :=
    .ofItems [word] (fun _ h => (nomatch h)) (fun _ h => (nomatch h))
  refine ⟨S ++ .ofItems (word :: ls.map fun l => .cell l.cell), ?_, hls.append (.ofItems _), ?_⟩
  · exact (hword.append hS).reorder List.perm_middle
  · rw [Lowered.instruction, hmodes, hcells]
    exact hls'.append (.ofItems _)

end TwinOperands

/-! ## Lowering -/

namespace Emit

variable {t : ScopeTable} {L : LabelTable} {site : Site}

@[simp] theorem size_fresh (name : String) : (L.fresh name).2.size = L.size + 1 :=
  Array.size_push ..

theorem exists_runAt_copyLowered (source target : Lowered) (site : Site) (s : EmitState) :
    ∃ items ∈ copyForms source target, ∃ c,
      (copyLowered source target).runAt site s = (.ok items, { s with choice := c }) := by
  unfold copyLowered
  rw [runAt_bind_ok (runAt_pick 4 site s)]
  split <;> exact ⟨_, by simp [copyForms], _, rfl⟩

namespace Couples

/-- Two copies take any two forms and use up nothing. -/
theorem copyLowered {source source' target target' : Lowered}
    {P : ScopeTable → LabelTable → List Item → List Item → Prop}
    (h : ∀ items ∈ copyForms source target, ∀ items' ∈ copyForms source' target', P t L items items') :
    Couples t L site (Emit.copyLowered source target) (Emit.copyLowered source' target') none P := by
  intro c₁ c₂
  obtain ⟨items, hitems, c₁', h₁⟩ := exists_runAt_copyLowered source target site ⟨L, t, c₁⟩
  obtain ⟨items', hitems', c₂', h₂⟩ := exists_runAt_copyLowered source' target' site ⟨L, t, c₂⟩
  exact ⟨t, L, c₁', c₂', items, items', h₁, h₂, h _ hitems _ hitems'⟩

section

variable {labels labels' : List Label} {l l' k k' : Lowered}

/-- What comes out of a computation on operands that hands out one label and writes a word under it. -/
def Writes (t : ScopeTable) (L : LabelTable) (mode : Mode) (labels : List Label) (t' : ScopeTable)
    (L' : LabelTable) (l l' : Lowered) : Prop :=
  t' = t ∧ L'.size = L.size + 1 ∧ l.mode = mode ∧ l.isFixed = false ∧
    TwinOperand (labels ++ [⟨L.size⟩]) L'.size l l'

/-- A word that a copy writes. -/
theorem copied {name : String} {mode : Mode} (h : TwinOperand labels L.size l l')
    (hlabels : ∀ r ∈ labels, LabelTable.reserved.size ≤ r.index) :
    Couples t L site
      (Emit.fresh name >>= fun tag => Emit.copyLowered l (.wordAt tag) >>= fun setup =>
        Pure.pure (.written mode tag setup))
      (Emit.fresh name >>= fun tag => Emit.copyLowered l' (.wordAt tag) >>= fun setup =>
        Pure.pure (.written mode tag setup)) none (Writes t L mode labels) := by
  refine fresh (bind (copyLowered (P := fun t' L' x x' => t' = t ∧ L'.size = L.size + 1 ∧
    Twins labels (L.size + 1) x x') ?_) ?_)
  · intro items hitems items' hitems'
    have htag : TwinOperand [] (L.size + 1) (.wordAt ⟨L.size⟩) (.wordAt ⟨L.size⟩) := .wordAt (Nat.lt_succ_self _)
    have htwins := (h.mono (Nat.le_succ _)).copy htag hlabels hitems hitems'
    rw [List.append_nil] at htwins
    exact ⟨rfl, size_fresh name, htwins⟩
  · rintro t' L' setup setup' ⟨rfl, hsize, htwins⟩
    exact pure ⟨rfl, hsize, rfl, rfl, by rw [hsize]; exact .written mode _ htwins⟩

theorem derefLowered (h : TwinOperand labels L.size l l') (hmode : l.mode = .position)
    (hlabels : ∀ r ∈ labels, LabelTable.reserved.size ≤ r.index) :
    Couples t L site (Emit.derefLowered l) (Emit.derefLowered l') none (Writes t L .immediate labels) := by
  have hmode' : l'.mode = .position := h.mode_eq.trans hmode
  unfold Emit.derefLowered
  rw [if_neg (by simp [hmode]), if_neg (by simp [hmode'])]
  exact copied h hlabels

theorem spillLowered (h : TwinOperand labels L.size l l') (hmode : l.mode = .relative)
    (hlabels : ∀ r ∈ labels, LabelTable.reserved.size ≤ r.index) :
    Couples t L site (Emit.spillLowered l) (Emit.spillLowered l') none (Writes t L .position labels) := by
  have hmode' : l'.mode = .relative := h.mode_eq.trans hmode
  unfold Emit.spillLowered
  rw [if_neg (by simp [hmode]), if_neg (by simp [hmode'])]
  exact copied h hlabels

theorem relabelLowered {mode : Mode} (h : TwinOperand labels L.size l l') (hmode : l.mode ≠ mode)
    {P : ScopeTable → LabelTable → Lowered → Lowered → Prop}
    (hP : TwinOperand labels L.size { l with mode } { l' with mode } → P t L { l with mode } { l' with mode }) :
    Couples t L site (Emit.relabelLowered mode l) (Emit.relabelLowered mode l') none P := by
  have hmode' : l'.mode ≠ mode := h.mode_eq ▸ hmode
  unfold Emit.relabelLowered
  rw [if_neg (by simpa using hmode), if_neg (by simpa using hmode')]
  exact pure (hP (h.withMode mode))

/-- An offset that is not known in advance is added by code. -/
theorem offsetLowered (h : TwinOperand labels L.size l l') (hk : TwinOperand labels' L.size k k')
    (hfold : (l.isFixed && k.isFixed && k.mode == .immediate) = false) :
    Couples t L site (Emit.offsetLowered l k) (Emit.offsetLowered l' k') none
      (Writes t L l.mode (labels ++ labels')) := by
  unfold Emit.offsetLowered
  rw [h.isFixed_eq, hk.isFixed_eq, hk.mode_eq, if_neg (by simp [hfold]), if_neg (by simp [hfold]), h.mode_eq]
  refine fresh (pure ⟨rfl, size_fresh _, rfl, rfl, ?_⟩)
  rw [size_fresh]
  have htag : TwinOperand [] (L.size + 1) (.wordAt ⟨L.size⟩) (.wordAt ⟨L.size⟩) := .wordAt (Nat.lt_succ_self _)
  have hall := TwinOperands.cons ((h.mono (Nat.le_succ _)).withMode .immediate)
    (.cons (hk.mono (Nat.le_succ _)) (.cons htag (.nil _)))
  simp only [List.append_nil] at hall
  exact .written _ _ (hall.instruction .add)

end

/-- The code that climbs from record to record. -/
theorem followParents {tag : Label} (htag : tag.index < L.size) (hL : LabelTable.reserved.size ≤ L.size)
    (n : Nat) :
    Couples t L site (Emit.followParents tag n) (Emit.followParents tag n) none fun t' L' x x' =>
      t' = t ∧ L.size ≤ L'.size ∧ Twins (Label.range L.size L'.size) L'.size x x' := by
  induction n generalizing L with
  | zero => exact pure ⟨rfl, Nat.le_refl _, by rw [Label.range_self]; exact .nil _⟩
  | succ n ih =>
    refine bind (derefLowered (.wordAt htag) rfl (fun _ h => (nomatch h))) ?_
    rintro t L₁ l l' ⟨rfl, hsize, hmode, -, hl⟩
    refine bind (relabelLowered hl (by rw [hmode]; decide) (P := fun t' L' x x' => t' = t ∧ L' = L₁ ∧
      TwinOperand [⟨L.size⟩] L'.size x x') fun h => ⟨rfl, rfl, h⟩) ?_
    rintro t L₁ p p' ⟨rfl, rfl, hp⟩
    refine bind (copyLowered (P := fun t' L' x x' => t' = t ∧ L' = L₁ ∧ Twins [⟨L.size⟩] L'.size x x') ?_) ?_
    · intro items hitems items' hitems'
      have htag' : TwinOperand [] L₁.size (.wordAt tag) (.wordAt tag) := .wordAt (by omega)
      exact ⟨rfl, rfl, hp.copy htag' (by simpa using hL) hitems hitems'⟩
    · rintro t L₁ code code' ⟨rfl, rfl, hcode⟩
      refine bind (ih (by omega) (by omega)) ?_
      rintro t L₂ more more' ⟨rfl, hle, hmore⟩
      refine pure ⟨rfl, by omega, ?_⟩
      rw [Label.range_cons (by omega), ← hsize]
      exact (hcode.mono hle).append hmore

/-- What lowering an operand that can be lowered leaves. -/
structure Lowers (o : Operand) (mode : Mode) (L L' : LabelTable) (l l' : Lowered) : Prop where
  mode_eq : l.mode = mode
  /-- A word that is known in advance is made of the operand's constants. -/
  of_fixed : l.isFixed = true → l.setup = [] ∧ l.cell.labels = o.labels ∧
    ∀ r ∈ l.cell.word.refs, r ∈ o.refs ∨ r.index < LabelTable.reserved.size
  size_le : L.size ≤ L'.size
  twins : TwinOperand (o.labels ++ Label.range L.size L'.size) L'.size l l'

/-- Where the operand has no labels of its own, all labels were handed out for it. -/
theorem Lowers.twins_range {o : Operand} {mode : Mode} {L' : LabelTable} {l l' : Lowered}
    (h : Lowers o mode L L' l l') (ho : o.labels = []) :
    TwinOperand (Label.range L.size L'.size) L'.size l l' := by
  have htwins := h.twins
  rwa [ho, List.nil_append] at htwins

/-- A word that is written under the last label that was handed out. -/
theorem Writes.lowers {o : Operand} {mode : Mode} {L₁ L' : LabelTable} {t' : ScopeTable} {l l' : Lowered}
    {labels : List Label} (h : Writes t L₁ mode labels t' L' l l') (hle : L.size ≤ L₁.size)
    (ho : o.labels = []) (hlabels : labels = Label.range L.size L₁.size) :
    t' = t ∧ Lowers o mode L L' l l' := by
  obtain ⟨ht, hsize, hmode, hfixed, htwins⟩ := h
  refine ⟨ht, hmode, fun h => ?_, by omega, ?_⟩
  · rw [hfixed] at h
    cases h
  · rw [ho, hsize, List.nil_append, Label.range_concat hle, ← hlabels, ← hsize]
    exact htwins

/-- The name of a variable is the only reason not to be lowered. -/
theorem varLowered (ht : t.Grounded) (hL : LabelTable.reserved.size ≤ L.size) (name : String)
    (scopeSlot : Int) :
    Couples t L site (Emit.varLowered name scopeSlot) (Emit.varLowered name scopeSlot)
      (t.missing [(site, name)]) fun t' L' l l' => t' = t ∧ Lowers (.var name scopeSlot) .position L L' l l' := by
  refine read (get fun c₁ c₂ => ?_)
  dsimp only
  rcases hr : t.resolve site.scope name with _ | ⟨location, offset⟩ | ⟨levelsUp, offset⟩
  · rw [show t.missing [(site, name)] = some (.unresolved name site.pos) by simp [ScopeTable.missing, hr]]
    exact throw _
  · rw [show t.missing [(site, name)] = none by simp [ScopeTable.missing, hr]]
    have hlocation := ht.index_lt hr
    let cell : Cell := .plain (.sum [.addr location, .num (Heap.recordHeader + offset : Nat)])
    have hrefs : ∀ r ∈ cell.word.refs, r.index < LabelTable.reserved.size := by
      simpa [cell, Cell.plain, Word.refs, Word.refsAll] using hlocation
    have htwins : TwinOperand [] L.size (.fixed .position cell) (.fixed .position cell) :=
      .fixed _ cell (fun r hr => Nat.lt_of_lt_of_le (hrefs r hr) hL) hrefs
    refine pure ⟨rfl, rfl, fun _ => ⟨rfl, rfl, fun r hr => .inr (hrefs r hr)⟩, Nat.le_refl _, ?_⟩
    rw [Label.range_self]
    exact htwins
  · rw [show t.missing [(site, name)] = none by simp [ScopeTable.missing, hr]]
    refine fresh ?_
    have htag : ∀ {m}, L.size + 1 ≤ m → TwinOperand [] m (.wordAt ⟨L.size⟩) (.wordAt ⟨L.size⟩) :=
      fun hm => .wordAt hm
    have hL₁ := size_fresh (L := L) "var"
    -- the scope pointer, the way up, and the offset of the slot, all in the word under the tag
    refine bind (copyLowered (P := fun t' L' x x' => t' = t ∧ L'.size = L.size + 1 ∧
      Twins [] (L.size + 1) x x') fun items hitems items' hitems' => ⟨rfl, hL₁, ?_⟩) ?_
    · exact (TwinOperand.number _ _).copy (htag (Nat.le_refl _)) (List.forall_mem_nil _) hitems hitems'
    rintro t L₁ start start' ⟨rfl, hL₁, hstart⟩
    refine bind (followParents (by rw [hL₁]; exact Nat.lt_succ_self _) (by omega) levelsUp) ?_
    rintro t L₂ climb climb' ⟨rfl, hL₂, hclimb⟩
    refine bind (offsetLowered (.number _ _) (htag (by omega)) rfl) ?_
    rintro t L₃ slot slot' ⟨rfl, hL₃, -, -, hslot⟩
    refine bind (copyLowered (P := fun t' L' x x' => t' = t ∧ L' = L₃ ∧ Twins [⟨L₂.size⟩] L₃.size x x')
      fun items hitems items' hitems' => ⟨rfl, rfl, ?_⟩) ?_
    · exact hslot.copy (htag (by omega)) (by simpa using by omega) hitems hitems'
    rintro t L₃ store store' ⟨rfl, rfl, hstore⟩
    have hcode : Twins (Label.range (L.size + 1) L₃.size) L₃.size (start ++ climb ++ store)
        (start' ++ climb' ++ store') := by
      rw [hL₃, Label.range_concat (by omega), ← hL₁, ← hL₃]
      exact ((hstart.mono (by omega)).append (hclimb.mono (by omega))).append hstore
    refine pure ⟨rfl, rfl, (absurd · Bool.false_ne_true), by omega, (TwinOperand.written _ _ hcode).perm ?_⟩
    rw [Label.range_cons (show L.size < L₃.size by omega)]
    exact List.perm_append_singleton _ _

/-- Where both parts of an offset are known, their sum is. -/
theorem offsetLowered_fixed {base amount : Operand} {mode : Mode} {L₁ L₂ : LabelTable}
    {l l' k k' : Lowered} (hl : Lowers base mode L L₁ l l') (hk : Lowers amount .immediate L₁ L₂ k k')
    (hbase : base.labels = []) (hamount : amount.labels = [])
    (hrefs : ∀ r ∈ base.refs ++ amount.refs, r.index < LabelTable.reserved.size)
    (hL : LabelTable.reserved.size ≤ L.size) (hfixed : l.isFixed = true) (hfixed' : k.isFixed = true) :
    Couples t L₂ site (Emit.offsetLowered l k) (Emit.offsetLowered l' k') none fun t' L' x x' =>
      t' = t ∧ Lowers (.offset base amount) mode L L' x x' := by
  obtain ⟨hsetup, hlabels, hword⟩ := hl.of_fixed hfixed
  obtain ⟨hsetup', hlabels', hword'⟩ := hk.of_fixed hfixed'
  rw [hbase] at hlabels
  rw [hamount] at hlabels'
  -- nothing was handed out on the way
  have hnew := hl.twins.labels_eq_nil hsetup hlabels
  have hnew' := hk.twins.labels_eq_nil hsetup' hlabels'
  rw [hbase, List.nil_append, Label.range_eq_nil] at hnew
  rw [hamount, List.nil_append, Label.range_eq_nil] at hnew'
  have hsize : L₂.size = L.size := by
    have := hl.size_le
    have := hk.size_le
    omega
  let cell : Cell := .plain (.sum [l.cell.word, k.cell.word])
  have hcell : ∀ r ∈ cell.word.refs, r ∈ base.refs ++ amount.refs ∨ r.index < LabelTable.reserved.size := by
    intro r hr
    simp only [cell, Cell.plain, Word.refs, Word.refsAll, List.append_nil, List.mem_append] at hr ⊢
    rcases hr with hr | hr
    · exact (hword r hr).imp_left .inl
    · exact (hword' r hr).imp_left .inr
  have hsmall : ∀ r ∈ cell.word.refs, r.index < LabelTable.reserved.size := fun r hr =>
    (hcell r hr).elim (hrefs r) id
  have htwins : TwinOperand [] L₂.size (.fixed mode cell) (.fixed mode cell) :=
    .fixed mode cell (fun r hr => by have := hsmall r hr; omega) hsmall
  unfold Emit.offsetLowered
  rw [hl.twins.isFixed_eq, hk.twins.isFixed_eq, hl.twins.cell_eq, hk.twins.cell_eq, hl.twins.mode_eq,
    hk.twins.mode_eq, hl.mode_eq, hk.mode_eq, hfixed, hfixed']
  simp only [Cell.isLabeled, hlabels, hlabels']
  refine pure ⟨rfl, rfl, fun _ => ⟨rfl, by simp [Operand.labels, hbase, hamount, Lowered.fixed, Cell.plain],
    hcell⟩, by omega, ?_⟩
  rw [hsize, Label.range_self, Operand.labels, hbase, hamount, ← hsize]
  exact htwins

/-- An operand that can be lowered is not lowered only if a name in it does not resolve. -/
theorem lower {o : Operand} {mode : Mode} (hmode : o.mode? = some mode) (ht : t.Grounded)
    (hL : LabelTable.reserved.size ≤ L.size) (hrefs : ∀ r ∈ o.refs, r.index < L.size) :
    Couples t L site (Emit.lower o) (Emit.lower o) (t.missing (o.vars.map (Prod.mk site)))
      fun t' L' l l' => t' = t ∧ Lowers o mode L L' l l' := by
  induction o generalizing L mode with
  | const m cell =>
    unfold Operand.mode? at hmode
    split at hmode
    · next hfolded =>
      cases hmode
      refine pure ⟨rfl, rfl, fun _ => ⟨rfl, rfl, fun r hr => .inl hr⟩, Nat.le_refl _, ?_⟩
      rw [Label.range_self, List.append_nil]
      exact .fixed _ _ hrefs (by simpa using hfolded)
    · cases hmode
  | offset base amount ihbase ihamount =>
    unfold Operand.mode? at hmode
    split at hmode
    · next hparts =>
      simp only [Bool.and_eq_true, List.isEmpty_iff, Option.isSome_iff_exists, List.all_eq_true,
        decide_eq_true_eq] at hparts
      obtain ⟨⟨⟨hbase, hamount⟩, amountMode, hamountMode⟩, hreserved⟩ := hparts
      rw [Operand.vars, List.map_append, ScopeTable.missing_append, ← Option.or_none (o := t.missing (amount.vars.map _))]
      refine bind (ihbase hmode hL fun r hr => hrefs r (List.mem_append_left _ hr)) ?_
      rintro t L₁ l l' ⟨rfl, hl⟩
      refine bind (ihamount hamountMode (Nat.le_trans hL hl.size_le) fun r hr =>
        Nat.lt_of_lt_of_le (hrefs r (List.mem_append_right _ hr)) hl.size_le) ?_
      rintro t L₂ k k' ⟨rfl, hk⟩
      rcases hfold : l.isFixed && k.isFixed && k.mode == .immediate with _ | _
      · have htwins := (hl.twins_range hbase).mono hk.size_le
        refine (offsetLowered htwins (hk.twins_range hamount) hfold).mono fun t' L' x x' h => ?_
        rw [hl.mode_eq] at h
        exact h.lowers (Nat.le_trans hl.size_le hk.size_le) (by simp [Operand.labels, hbase, hamount])
          (Label.range_append hl.size_le hk.size_le)
      · simp only [Bool.and_eq_true, beq_iff_eq] at hfold
        obtain rfl : amountMode = .immediate := hk.mode_eq.symm.trans hfold.2
        exact offsetLowered_fixed hl hk hbase hamount hreserved hL hfold.1.1 hfold.1.2
    · cases hmode
  | deref o ih =>
    unfold Operand.mode? at hmode
    split at hmode
    · next hpointer =>
      simp only [Bool.and_eq_true, List.isEmpty_iff, beq_iff_eq] at hpointer
      cases hmode
      rw [← Option.or_none (o := t.missing _)]
      refine bind (ih hpointer.2 hL hrefs) ?_
      rintro t L₁ l l' ⟨rfl, hl⟩
      refine (derefLowered (hl.twins_range hpointer.1) hl.mode_eq fun r hr => ?_).mono fun t' L' x x' h =>
        h.lowers hl.size_le hpointer.1 rfl
      exact Nat.le_trans hL (Label.mem_range.1 hr).1
    · cases hmode
  | relabel m o ih =>
    unfold Operand.mode? at hmode
    split at hmode
    · next hrelabel =>
      simp only [Bool.and_eq_true, List.isEmpty_iff, Option.isSome_iff_exists, bne_iff_ne] at hrelabel
      cases hmode
      obtain ⟨⟨hlabels, m', hm'⟩, hne⟩ := hrelabel
      rw [← Option.or_none (o := t.missing _)]
      refine bind (ih hm' hL hrefs) ?_
      rintro t L₁ l l' ⟨rfl, hl⟩
      refine relabelLowered hl.twins ?_ fun htwins =>
        ⟨rfl, rfl, hl.of_fixed, hl.size_le, htwins⟩
      rw [hl.mode_eq]
      rintro rfl
      exact hne hm'
    · cases hmode
  | spill o ih =>
    unfold Operand.mode? at hmode
    split at hmode
    · next hslot =>
      simp only [Bool.and_eq_true, List.isEmpty_iff, beq_iff_eq] at hslot
      cases hmode
      rw [← Option.or_none (o := t.missing _)]
      refine bind (ih hslot.2 hL hrefs) ?_
      rintro t L₁ l l' ⟨rfl, hl⟩
      refine (spillLowered (hl.twins_range hslot.1) hl.mode_eq fun r hr => ?_).mono fun t' L' x x' h =>
        h.lowers hl.size_le hslot.1 rfl
      exact Nat.le_trans hL (Label.mem_range.1 hr).1
    · cases hmode
  | var name scopeSlot =>
    cases hmode
    exact varLowered ht hL name scopeSlot

end Couples

end Emit

end Lamcode
