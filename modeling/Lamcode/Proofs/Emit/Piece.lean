import Lamcode.Proofs.Emit.Lowering

/-!
# Lamcode.Proofs.Emit.Piece — pieces of code

A `Piece` is a computation of which four things are known whatever it is run with: the labels it was given to carry,
the labels it mentions that were there before, the names it uses, in order, and that two runs of it come out with
twins. It fails for the first name that does not resolve, and for nothing else. There is one rule per emitter; code
made of pieces is a piece.
-/

namespace Lamcode.Emit

variable {β γ : Type} {site : Site}

/-- The computation carries the labels of `own`, mentions no other labels than those of `refs` and those it hands
out, and uses the names of `uses`, in order. Two runs of it come out with what `R` relates. -/
structure Piece (R : List Label → Nat → β → β → Prop) (site : Site) (e : Emit β) (own refs : List Label)
    (uses : List (Site × String)) : Prop where
  couples : ∀ {t : ScopeTable} {L : LabelTable}, t.Grounded → LabelTable.reserved.size ≤ L.size →
    (∀ r ∈ refs, r.index < L.size) →
    Couples t L site e e (t.missing uses) fun t' L' x x' =>
      t' = t ∧ L.size ≤ L'.size ∧ R (own ++ Label.range L.size L'.size) L'.size x x'

/-- The order of the labels does not matter. -/
def Unordered (R : List Label → Nat → β → β → Prop) : Prop :=
  ∀ ⦃labels labels' : List Label⦄ ⦃m : Nat⦄ ⦃x x' : β⦄, R labels m x x' → labels.Perm labels' →
    R labels' m x x'

namespace Piece

section

variable {R : List Label → Nat → β → β → Prop} {e : Emit β} {own own' refs refs' : List Label}
  {uses uses' : List (Site × String)}

theorem within {other : Site} (h : Piece R site e own refs uses) :
    Piece R other (Emit.within site e) own refs uses :=
  ⟨h.couples⟩

/-- The lists can be written in other ways; reserved labels can always be mentioned. -/
theorem restate (h : Piece R site e own refs uses) (hown : own = own')
    (hrefs : ∀ r ∈ refs, r ∈ refs' ∨ r.index < LabelTable.reserved.size) (huses : uses = uses') :
    Piece R site e own' refs' uses' := by
  subst hown huses
  exact ⟨fun ht hL hr => h.couples ht hL fun r hmem =>
    (hrefs r hmem).elim (hr r) fun hlt => Nat.lt_of_lt_of_le hlt hL⟩

theorem perm (hR : Unordered R) (h : Piece R site e own refs uses) (hown : own.Perm own') :
    Piece R site e own' refs uses := by
  refine ⟨fun {t L} ht hL hrefs => ?_⟩
  refine (h.couples ht hL hrefs).mono ?_
  rintro t' L' x x' ⟨ht', hle, hx⟩
  exact ⟨ht', hle, hR hx (hown.append_right _)⟩

/-- A label that is handed out and carried. -/
theorem fresh (hR : Unordered R) {name : String} {f : Label → Emit β}
    (h : ∀ l, Piece R site (f l) (l :: own) (l :: refs) uses) :
    Piece R site (Emit.fresh name >>= f) own refs uses := by
  refine ⟨fun {t L} ht hL hrefs => ?_⟩
  have hsize := size_fresh (L := L) name
  have hpiece := (h ⟨L.size⟩).couples ht (L := (L.fresh name).2) (by omega) fun r hr => by
    rcases List.mem_cons.1 hr with rfl | hr
    · rw [hsize]
      exact Nat.lt_succ_self _
    · exact Nat.lt_of_lt_of_le (hrefs r hr) (by omega)
  refine .fresh (hpiece.mono ?_)
  rintro t' L' x x' ⟨ht', hle, hx⟩
  refine ⟨ht', by omega, hR hx ?_⟩
  rw [hsize, Label.range_cons (n := L.size) (by omega)]
  exact List.perm_middle.symm

end

theorem unordered_twins : Unordered Twins :=
  fun _ _ _ _ _ h => h.perm

variable {own own' refs refs' : List Label} {uses uses' : List (Site × String)}

/-- Code that is written without choices. -/
theorem items (items : List Item) (hfolded : Item.folded items = []) :
    Piece Twins site (pure items) (Item.labels items) (Item.refs items) [] := by
  refine ⟨fun {t L} _ _ hrefs => ?_⟩
  refine .pure ⟨rfl, Nat.le_refl _, ?_⟩
  rw [Label.range_self, List.append_nil]
  exact .refl items hrefs (by simp [hfolded])

theorem placeLabel (l : Label) : Piece Twins site (Emit.placeLabel l) [l] [] [] :=
  items [.hanging l] rfl

theorem nil : Piece Twins site (concat []) [] [] [] :=
  items [] rfl

/-- One piece behind the other: the first one hands its labels out first. -/
theorem perm_append_range (own own' : List Label) {n n₁ n₂ : Nat} (h : n ≤ n₁) (h' : n₁ ≤ n₂) :
    ((own ++ Label.range n n₁) ++ (own' ++ Label.range n₁ n₂)).Perm ((own ++ own') ++ Label.range n n₂) := by
  rw [← Label.range_append h h', List.append_assoc, List.append_assoc]
  refine .append_left own ?_
  rw [← List.append_assoc, ← List.append_assoc]
  exact List.perm_append_comm.append_right _

theorem cons {e : Emit (List Item)} {es : List (Emit (List Item))} (h : Piece Twins site e own refs uses)
    (k : Piece Twins site (concat es) own' refs' uses') :
    Piece Twins site (concat (e :: es)) (own ++ own') (refs ++ refs') (uses ++ uses') := by
  refine ⟨fun {t L} ht hL hrefs => ?_⟩
  rw [ScopeTable.missing_append, ← Option.or_none (o := t.missing uses')]
  refine .bind (h.couples ht hL fun r hr => hrefs r (List.mem_append_left _ hr)) ?_
  rintro t L₁ code code' ⟨rfl, hle, hcode⟩
  refine .bind (k.couples ht (by omega) fun r hr =>
    Nat.lt_of_lt_of_le (hrefs r (List.mem_append_right _ hr)) hle) ?_
  rintro t L₂ more more' ⟨rfl, hle', hmore⟩
  exact .pure ⟨rfl, by omega, ((hcode.mono hle').append hmore).perm (perm_append_range _ _ hle hle')⟩

/-! ## Instructions -/

theorem lowerAll {os : List Operand} (hos : ∀ o ∈ os, o.mode?.isSome) :
    Piece TwinOperands site (Emit.lowerAll os) (os.flatMap Operand.labels)
      (os.flatMap Operand.refs) ((os.flatMap Operand.vars).map (Prod.mk site)) := by
  induction os with
  | nil =>
    refine ⟨fun {t L} _ _ _ => ?_⟩
    refine .pure ⟨rfl, Nat.le_refl _, ?_⟩
    rw [Label.range_self]
    exact .nil _
  | cons o os ih =>
    refine ⟨fun {t L} ht hL hrefs => ?_⟩
    obtain ⟨mode, hmode⟩ := Option.isSome_iff_exists.1 (hos o (by simp))
    rw [List.flatMap_cons, List.map_append, ScopeTable.missing_append,
      ← Option.or_none (o := t.missing ((os.flatMap _).map _))]
    refine .bind (.lower hmode ht hL fun r hr => hrefs r (List.mem_append_left _ hr)) ?_
    rintro t L₁ l l' ⟨rfl, hl⟩
    refine .bind ((ih fun o' ho' => hos o' (by simp [ho'])).couples ht (Nat.le_trans hL hl.size_le) fun r hr =>
      Nat.lt_of_lt_of_le (hrefs r (List.mem_append_right _ hr)) hl.size_le) ?_
    rintro t L₂ ls ls' ⟨rfl, hle, hls⟩
    refine .pure ⟨rfl, Nat.le_trans hl.size_le hle, ?_⟩
    exact (TwinOperands.cons (hl.twins.mono hle) hls).perm (perm_append_range _ _ hl.size_le hle)

theorem instruction (op : Opcode) (os : List Operand) (hos : ∀ o ∈ os, o.mode?.isSome) :
    Piece Twins site (Emit.instruction op os) (os.flatMap Operand.labels) (os.flatMap Operand.refs)
      ((os.flatMap Operand.vars).map (Prod.mk site)) := by
  refine ⟨fun {t L} ht hL hrefs => ?_⟩
  rw [← Option.or_none (o := t.missing _)]
  refine .bind ((lowerAll hos).couples ht hL hrefs) ?_
  rintro t L' ls ls' ⟨rfl, hle, hls⟩
  exact .pure ⟨rfl, hle, hls.instruction op⟩

theorem copy {source target : Operand} (hsource : source.mode?.isSome) (htarget : target.mode?.isSome)
    (hlabels : source.labels = []) :
    Piece Twins site (Emit.copy source target) target.labels (source.refs ++ target.refs)
      ((source.vars ++ target.vars).map (Prod.mk site)) := by
  refine ⟨fun {t L} ht hL hrefs => ?_⟩
  obtain ⟨mode, hmode⟩ := Option.isSome_iff_exists.1 hsource
  obtain ⟨mode', hmode'⟩ := Option.isSome_iff_exists.1 htarget
  rw [List.map_append, ScopeTable.missing_append, ← Option.or_none (o := t.missing (target.vars.map _))]
  refine .bind (.lower hmode ht hL fun r hr => hrefs r (List.mem_append_left _ hr)) ?_
  rintro t L₁ l l' ⟨rfl, hl⟩
  refine .bind (.lower hmode' ht (Nat.le_trans hL hl.size_le) fun r hr =>
    Nat.lt_of_lt_of_le (hrefs r (List.mem_append_right _ hr)) hl.size_le) ?_
  rintro t L₂ k k' ⟨rfl, hk⟩
  refine .copyLowered fun items hitems items' hitems' => ⟨rfl, Nat.le_trans hl.size_le hk.size_le, ?_⟩
  have htwins := hl.twins.mono hk.size_le
  rw [hlabels, List.nil_append] at htwins
  have hnew : ∀ r ∈ Label.range L.size L₁.size, LabelTable.reserved.size ≤ r.index := fun r hr =>
    Nat.le_trans hL (Label.mem_range.1 hr).1
  exact (htwins.copy hk.twins hnew hitems hitems').perm
    (perm_append_range [] _ hl.size_le hk.size_le)

theorem exists_runAt_addTo (site : Site) (amountMode outMode : Mode) (amount out : Word) (s : EmitState) :
    ∃ form, (Operation.addTo amountMode amount outMode out).Form form ∧ ∃ c,
      (Emit.addTo (.const amountMode (.plain amount)) (.const outMode (.plain out))).runAt site s =
        (.ok form, { s with choice := c }) := by
  unfold Emit.addTo
  rw [runAt_bind_ok (runAt_pick 2 site s)]
  split
  · exact ⟨_, .addOut amountMode amount outMode out, _, rfl⟩
  · exact ⟨_, .addAmount amountMode amount outMode out, _, rfl⟩

/-- The operands of an addition to a word are constants without labels. -/
theorem addTo (amountMode outMode : Mode) (amount out : Word) (hamount : amount.folded = [])
    (hout : out.folded = []) :
    Piece Twins site (Emit.addTo (.const amountMode (.plain amount)) (.const outMode (.plain out))) []
      (amount.refs ++ out.refs) [] := by
  refine ⟨fun {t L} ht hL hrefs c₁ c₂ => ?_⟩
  obtain ⟨form, hform, c₁', h₁⟩ := exists_runAt_addTo site amountMode outMode amount out ⟨L, t, c₁⟩
  obtain ⟨form', hform', c₂', h₂⟩ := exists_runAt_addTo site amountMode outMode amount out ⟨L, t, c₂⟩
  refine ⟨t, L, c₁', c₂', form, form', h₁, h₂, rfl, Nat.le_refl _,
    [.choice (.addTo amountMode amount outMode out)], ?_, .of_form hform, .of_form hform'⟩
  let words : List Item := [.word out, .word amount, .word out]
  have hwords : Accounts [] L.size (.ofItems words) :=
    .ofItems words (fun r hr => hrefs r ?_) (by simp [words, Item.folded, Item.summed, Item.word, Cell.plain,
      hamount, hout])
  · rw [Label.range_self]
    refine Accounts.choose (S := []) words hwords (fun {f} hf => ?_) (List.forall_mem_nil _)
    have hplain : ∀ k, f (.cell (.plain (.num k))) = [] := hf
    simp [Operation.first, Lowered.instruction, Lowered.fixed, hplain, words, Item.word]
  · simp only [words, Item.refs, Item.mentioned, Item.word, Cell.plain, List.flatMap_cons, List.flatMap_nil,
      List.append_nil, List.mem_append] at hr ⊢
    tauto

theorem exists_runAt_jump (site : Site) (target : Operand) (s : EmitState) :
    ∃ (op : Opcode) (n : Int) (c : Choice),
      (∀ w : OperandWord, (Operation.jump w).Form
        (Lowered.instruction op [.fixed .immediate (.plain (.num n)), w.lowered])) ∧
      (Emit.jump target).runAt site s =
        (Emit.lower target >>= fun l =>
          pure (Lowered.instruction op [.fixed .immediate (.plain (.num n)), l])).runAt site
            { s with choice := c } := by
  unfold Emit.jump
  rw [runAt_bind_ok (runAt_pick 3 site s)]
  split
  · refine ⟨.jumpIfFalse, 0, (s.choice.pick 3).2, .jumpOnZero, ?_⟩
    simp [Emit.jumpIfFalse, Emit.instruction, Emit.lowerAll, Emit.lower, Operand.int, Operand.imm]
  · rw [runAt_bind_ok (runAt_pickNonzero site _)]
    refine ⟨.jumpIfTrue, (s.choice.pick 3).2.nonzero.1, (s.choice.pick 3).2.nonzero.2,
      fun w => .jumpOnNonzero w (Choice.nonzero_ne_zero _), ?_⟩
    simp [Emit.jumpIfTrue, Emit.instruction, Emit.lowerAll, Emit.lower, Operand.int, Operand.imm]

theorem jump {target : Operand} (htarget : target.mode?.isSome) :
    Piece Twins site (Emit.jump target) target.labels target.refs (target.vars.map (Prod.mk site)) := by
  refine ⟨fun {t L} ht hL hrefs c₁ c₂ => ?_⟩
  obtain ⟨mode, hmode⟩ := Option.isSome_iff_exists.1 htarget
  obtain ⟨op, n, c₁', hform, h₁⟩ := exists_runAt_jump site target ⟨L, t, c₁⟩
  obtain ⟨op', n', c₂', hform', h₂⟩ := exists_runAt_jump site target ⟨L, t, c₂⟩
  rw [h₁, h₂, ← Option.or_none (o := t.missing _)]
  refine Couples.bind (.lower hmode ht hL hrefs) ?_ c₁' c₂'
  rintro t L' l l' ⟨rfl, hl⟩
  refine .pure ⟨rfl, hl.size_le, ?_⟩
  obtain ⟨S, hS, hsetup, hsetup'⟩ := hl.twins.setup
  have hwords : ∀ (op : Opcode) (n : Int) (l : Lowered),
      Lowered.instruction op [.fixed .immediate (.plain (.num n)), l] =
        l.setup ++ Lowered.instruction op [.fixed .immediate (.plain (.num n)), l.word.lowered] := by
    intro op n l
    simp [Lowered.instruction, Lowered.fixed, OperandWord.lowered, Lowered.word]
  rw [hwords op n l, hwords op' n' l', hl.twins.word_eq]
  refine ⟨S ++ [.choice (.jump l.word)], ?_, hsetup.append (.of_form (hform _)),
    hsetup'.append (.of_form (hform' _))⟩
  refine Accounts.choose [.cell l.cell] hS (fun {f} hf => ?_) (List.forall_mem_nil _)
  have hplain : ∀ k, f (.cell (.plain (.num k))) = [] := hf
  simp [Operation.first, Lowered.instruction, OperandWord.lowered, Lowered.fixed, Lowered.word, hf, hplain]

theorem moveStack (n : Int) : Piece Twins site (Emit.moveStack n) [] [] [] :=
  instruction .adjustBase [.int n] (by simp [Operand.int, Operand.imm, Operand.mode?, Cell.plain, Word.folded])

theorem writeToRam {value : Operand} (hvalue : value.mode?.isSome) (hlabels : value.labels = []) :
    Piece Twins site (Emit.writeToRam value) [] value.refs (value.vars.map (Prod.mk site)) := by
  have hcopy : Piece Twins site (Emit.copy value (Operand.deref (.wordAt .ramPointer)).toPointer) []
      (value.refs ++ [.ramPointer]) ((value.vars ++ []).map (Prod.mk site)) := copy hvalue rfl hlabels
  have hadd : Piece Twins site (Emit.addTo (.int 1) (.wordAt .ramPointer)) [] [.ramPointer] [] :=
    addTo .immediate .position (.num 1) (.addr .ramPointer) rfl rfl
  refine (hcopy.cons (hadd.cons nil)).restate rfl (fun r hr => ?_) (by simp)
  simp only [List.append_nil, List.mem_append, List.mem_singleton] at hr
  rcases hr with (hr | rfl) | rfl
  · exact .inl hr
  · exact .inr (by decide)
  · exact .inr (by decide)

end Piece

end Lamcode.Emit
