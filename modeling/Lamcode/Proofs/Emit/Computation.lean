import Lamcode.Compile.Image

/-!
# Lamcode.Proofs.Emit.Computation — what a computation that writes code can have written

`Emit.runAt` is opened here, one equation per primitive, and nowhere else. On top of these equations stands
`Emits t site e x`: somewhere in a compilation, with the scopes `t` and at the site `site`, the computation
`e` comes out with `x`. Which labels it was handed and which encodings it chose is forgotten on purpose: the
meaning of code depends on neither. Forgetting the state is sound because everything below whole built-ins
leaves the scopes alone (`Steady`). What code does to the state is followed for any relation of states at once
(`Moves`). Where the labels matter, `EmitsFrom n` remembers that the labels below `n` were handed out before, so that
those in the code are others.

The last part takes each emitter apart: what it can have written, in terms of what its parts can have
written.
-/

namespace Lamcode

/-- The number that makes a test come out true is not zero. -/
theorem Choice.nonzero_ne_zero (c : Choice) : c.nonzero.1 ≠ 0 :=
  c.supply.nonzero_ne_zero c.state

/-- The names of the variables in an operand. -/
def Operand.vars : Operand → List String
  | .const _ _ => []
  | .offset base amount => base.vars ++ amount.vars
  | .deref o | .relabel _ o | .spill o => o.vars
  | .var name _ => [name]

namespace Emit

variable {β γ : Type}

/-! ## One equation per primitive -/

@[simp] theorem runAt_pure (x : β) (site : Site) (s : EmitState) :
    (pure x : Emit β).runAt site s = (.ok x, s) := rfl

theorem runAt_bind (e : Emit β) (f : β → Emit γ) (site : Site) (s : EmitState) :
    (e >>= f).runAt site s =
      match e.runAt site s with
      | (.ok x, s') => (f x).runAt site s'
      | (.error err, s') => (.error err, s') := by
  change ExceptT.bindCont (fun x => f x site) (e site s).1 (e site s).2 = _
  change _ = match e site s with
    | (.ok x, s') => f x site s'
    | (.error err, s') => (.error err, s')
  rcases e site s with ⟨_ | x, s'⟩ <;> rfl

theorem runAt_bind_ok {e : Emit β} {site : Site} {s s' : EmitState} {x : β}
    (h : e.runAt site s = (.ok x, s')) (f : β → Emit γ) :
    (e >>= f).runAt site s = (f x).runAt site s' := by
  rw [runAt_bind, h]

theorem runAt_bind_error {e : Emit β} {site : Site} {s s' : EmitState} {err : EmitError}
    (h : e.runAt site s = (.error err, s')) (f : β → Emit γ) :
    (e >>= f).runAt site s = (.error err, s') := by
  rw [runAt_bind, h]

@[simp] theorem runAt_throw (err : EmitError) (site : Site) (s : EmitState) :
    (throw err : Emit β).runAt site s = (.error err, s) := rfl

@[simp] theorem runAt_read (site : Site) (s : EmitState) :
    (read : Emit Site).runAt site s = (.ok site, s) := rfl

@[simp] theorem runAt_get (site : Site) (s : EmitState) :
    (get : Emit EmitState).runAt site s = (.ok s, s) := rfl

@[simp] theorem runAt_fresh (name : String) (site : Site) (s : EmitState) :
    (fresh name).runAt site s =
      (.ok (s.labels.fresh name).1, { s with labels := (s.labels.fresh name).2 }) := rfl

@[simp] theorem runAt_pick (n : Nat) (site : Site) (s : EmitState) :
    (pick n).runAt site s =
      (.ok (s.choice.pick n).1, { s with choice := (s.choice.pick n).2 }) := rfl

@[simp] theorem runAt_pickNonzero (site : Site) (s : EmitState) :
    pickNonzero.runAt site s =
      (.ok s.choice.nonzero.1, { s with choice := s.choice.nonzero.2 }) := rfl

@[simp] theorem runAt_openScope (outer : Nat) (site : Site) (s : EmitState) :
    (openScope outer).runAt site s =
      (.ok (s.scopes.child outer).1, { s with scopes := (s.scopes.child outer).2 }) := rfl

@[simp] theorem runAt_bindName (scope : Nat) (name : String) (site : Site) (s : EmitState) :
    (bindName scope name).runAt site s =
      (.ok (), { s with scopes := s.scopes.bind scope name }) := rfl

@[simp] theorem runAt_within (e : Emit β) (site other : Site) (s : EmitState) :
    (within site e).runAt other s = e.runAt site s := rfl

@[simp] theorem runAt_placeLabel (l : Label) (site : Site) (s : EmitState) :
    (placeLabel l).runAt site s = (.ok [.hanging l], s) := rfl

/-- A computation in two parts that succeeds, taken apart. -/
theorem exists_of_runAt_bind {e : Emit β} {f : β → Emit γ} {site : Site} {s s'' : EmitState} {y : γ}
    (h : (e >>= f).runAt site s = (.ok y, s'')) :
    ∃ x s', e.runAt site s = (.ok x, s') ∧ (f x).runAt site s' = (.ok y, s'') := by
  rw [runAt_bind] at h
  rcases he : e.runAt site s with ⟨_ | x, s'⟩
  · rw [he] at h
    cases h
  · rw [he] at h
    exact ⟨x, s', rfl, h⟩

/-- Writing code in two parts is writing it in one. -/
theorem concat_append (es es' : List (Emit (List Item))) :
    concat (es ++ es') = do
      let code ← concat es
      let more ← concat es'
      return code ++ more := by
  induction es with
  | nil => simp [concat]
  | cons e es ih =>
    simp only [List.cons_append, concat, ih, bind_assoc, pure_bind, List.append_assoc]

/-! ## What a computation does to the state -/

/-- A relation between states that holds across writing any code but that of functions, as far as this draws choices
and hands out labels. -/
class Harmless (R : EmitState → EmitState → Prop) : Prop where
  refl (s : EmitState) : R s s
  trans {s s' s'' : EmitState} : R s s' → R s' s'' → R s s''
  choose (s : EmitState) (choice : Choice) : R s { s with choice }
  label (s : EmitState) {name : String} : name ≠ "function" → R s { s with labels := (s.labels.fresh name).2 }

/-- The computation takes every state to one that is related to it, whether it succeeds or not. -/
def Moves (R : EmitState → EmitState → Prop) (e : Emit β) : Prop :=
  ∀ site s, R s (e.runAt site s).2

namespace Moves

variable {R : EmitState → EmitState → Prop}

theorem within {e : Emit β} (site : Site) (he : Moves R e) : Moves R (Emit.within site e) :=
  fun _ s => he site s

variable [Harmless R]

@[simp] theorem pure (x : β) : Moves R (Pure.pure x : Emit β) := fun _ s => Harmless.refl s

theorem bind {e : Emit β} {f : β → Emit γ} (he : Moves R e) (hf : ∀ x, Moves R (f x)) :
    Moves R (e >>= f) := by
  intro site s
  have h := he site s
  rw [runAt_bind]
  rcases hr : e.runAt site s with ⟨_ | x, s'⟩
  · rw [hr] at h
    exact h
  · rw [hr] at h
    exact Harmless.trans h (hf x site s')

theorem throw (err : EmitError) : Moves R (throw err : Emit β) := fun _ s => Harmless.refl s

theorem read : Moves R (read : Emit Site) := fun _ s => Harmless.refl s

theorem get : Moves R (get : Emit EmitState) := fun _ s => Harmless.refl s

theorem fresh {name : String} (h : name ≠ "function") : Moves R (Emit.fresh name) :=
  fun _ s => Harmless.label s h

theorem pick (n : Nat) : Moves R (Emit.pick n) := fun _ s => Harmless.choose s _

theorem pickNonzero : Moves R Emit.pickNonzero := fun _ s => Harmless.choose s _

@[simp] theorem placeLabel (l : Label) : Moves R (Emit.placeLabel l) := fun _ s => Harmless.refl s

theorem concat : ∀ {es : List (Emit (List Item))}, (∀ e ∈ es, Moves R e) → Moves R (Emit.concat es)
  | [], _ => pure []
  | e :: es, h => by
    refine bind (h e (by simp)) fun _ => bind (concat fun e' he' => h e' (by simp [he'])) fun _ => ?_
    exact pure _

theorem concat_append {es es' : List (Emit (List Item))} (h : Moves R (Emit.concat es))
    (h' : Moves R (Emit.concat es')) : Moves R (Emit.concat (es ++ es')) := by
  rw [Emit.concat_append]
  exact bind h fun _ => bind h' fun _ => pure _

theorem copyLowered (source target : Lowered) : Moves R (Emit.copyLowered source target) := by
  refine bind (pick 4) fun k => ?_
  split <;> exact pure _

theorem offsetLowered (base amount : Lowered) : Moves R (Emit.offsetLowered base amount) := by
  unfold Emit.offsetLowered
  have code : Moves R (do
      let tag ← Emit.fresh "offset"
      return Lowered.written base.mode tag
        (Lowered.instruction .add [{ base with mode := .immediate }, amount, .wordAt tag])) :=
    bind (fresh (by decide)) fun _ => pure _
  split
  · split
    · exact bind (throw _) fun _ => pure _
    · exact pure _
  · exact code

theorem derefLowered (pointer : Lowered) : Moves R (Emit.derefLowered pointer) := by
  unfold Emit.derefLowered
  have code : Moves R (do
      let tag ← Emit.fresh "deref"
      let setup ← Emit.copyLowered pointer (.wordAt tag)
      return Lowered.written .immediate tag setup) :=
    bind (fresh (by decide)) fun _ => bind (copyLowered _ _) fun _ => pure _
  split
  · exact bind (throw _) fun _ => code
  · exact code

theorem relabelLowered (mode : Mode) (o : Lowered) : Moves R (Emit.relabelLowered mode o) := by
  unfold Emit.relabelLowered
  split
  · exact bind (throw _) fun _ => pure _
  · exact pure _

theorem spillLowered (slot : Lowered) : Moves R (Emit.spillLowered slot) := by
  unfold Emit.spillLowered
  have code : Moves R (do
      let tag ← Emit.fresh "spill"
      let setup ← Emit.copyLowered slot (.wordAt tag)
      return Lowered.written .position tag setup) :=
    bind (fresh (by decide)) fun _ => bind (copyLowered _ _) fun _ => pure _
  split
  · exact bind (throw _) fun _ => code
  · exact code

theorem followParents (tag : Label) : ∀ n, Moves R (Emit.followParents tag n)
  | 0 => pure []
  | n + 1 =>
    bind (derefLowered _) fun _ => bind (relabelLowered _ _) fun _ => bind (copyLowered _ _) fun _ =>
      bind (followParents tag n) fun _ => pure _

theorem varLowered (name : String) (scopeSlot : Int) : Moves R (Emit.varLowered name scopeSlot) := by
  refine bind read fun site => bind get fun s => ?_
  split
  · exact throw _
  · exact bind (offsetLowered _ _) fun _ => relabelLowered _ _
  · exact bind (fresh (by decide)) fun _ => bind (copyLowered _ _) fun _ => bind (followParents _ _) fun _ =>
      bind (offsetLowered _ _) fun _ => bind (copyLowered _ _) fun _ => pure _

theorem lower : ∀ o : Operand, Moves R (Emit.lower o)
  | .const _ _ => pure _
  | .offset base amount =>
    bind (lower base) fun _ => bind (lower amount) fun _ => offsetLowered _ _
  | .deref pointer => bind (lower pointer) fun _ => derefLowered _
  | .relabel _ o => bind (lower o) fun _ => relabelLowered _ _
  | .spill slot => bind (lower slot) fun _ => spillLowered _
  | .var _ _ => varLowered _ _

theorem lowerAll : ∀ os : List Operand, Moves R (Emit.lowerAll os)
  | [] => pure _
  | o :: os => bind (lower o) fun _ => bind (lowerAll os) fun _ => pure _

@[simp] theorem instruction (op : Opcode) (operands : List Operand) :
    Moves R (Emit.instruction op operands) :=
  bind (lowerAll operands) fun _ => pure _

@[simp] theorem copy (source target : Operand) : Moves R (Emit.copy source target) :=
  bind (lower source) fun _ => bind (lower target) fun _ => copyLowered _ _

@[simp] theorem addTo (amount out : Operand) : Moves R (Emit.addTo amount out) := by
  refine bind (pick 2) fun k => ?_
  split <;> exact instruction _ _

@[simp] theorem jump (target : Operand) : Moves R (Emit.jump target) := by
  refine bind (pick 3) fun k => ?_
  split
  · exact instruction _ _
  · exact bind pickNonzero fun _ => instruction _ _

@[simp] theorem moveStack (n : Int) : Moves R (Emit.moveStack n) := instruction _ _

@[simp] theorem writeToRam (value : Operand) : Moves R (Emit.writeToRam value) := by
  refine concat fun e he => ?_
  rcases List.mem_cons.1 he with rfl | he
  · exact copy _ _
  · obtain rfl := List.mem_singleton.1 he
    exact addTo _ _

end Moves

/-- The state after has the scopes of the state before. -/
abbrev SameScopes (s s' : EmitState) : Prop :=
  s'.scopes = s.scopes

instance : Harmless SameScopes where
  refl _ := rfl
  trans h k := k.trans h
  choose _ _ := rfl
  label _ _ _ := rfl

/-- The computation neither opens a scope nor binds a name, whether it succeeds or not. -/
abbrev Steady (e : Emit β) : Prop :=
  Moves SameScopes e

@[simp] theorem Steady.fresh (name : String) : Steady (Emit.fresh name) := fun _ _ => rfl

/-- The state after has the scopes of the state before and all its labels. -/
abbrev MoreLabels (s s' : EmitState) : Prop :=
  s'.scopes = s.scopes ∧ s.labels.size ≤ s'.labels.size

instance : Harmless MoreLabels where
  refl _ := ⟨rfl, Nat.le_refl _⟩
  trans h k := ⟨k.1.trans h.1, Nat.le_trans h.2 k.2⟩
  choose _ _ := ⟨rfl, Nat.le_refl _⟩
  label s _ _ := ⟨rfl, by simp [LabelTable.fresh, LabelTable.size]⟩

/-! ## What a computation can come out with -/

/-- Somewhere in a compilation with the scopes `t`, the computation comes out with `x`. -/
def Emits (t : ScopeTable) (site : Site) (e : Emit β) (x : β) : Prop :=
  ∃ s s', s.scopes = t ∧ e.runAt site s = (.ok x, s')

namespace Emits

variable {t : ScopeTable} {site : Site} {items : List Item} {l : Lowered}

theorem of_runAt {e : Emit β} {s s' : EmitState} {x : β} (h : e.runAt site s = (.ok x, s')) :
    Emits s.scopes site e x :=
  ⟨s, s', rfl, h⟩

theorem pure {x y : β} (h : Emits t site (Pure.pure x) y) : y = x := by
  obtain ⟨s, s', -, hrun⟩ := h
  rw [runAt_pure] at hrun
  cases hrun
  rfl

theorem throw {err : EmitError} {x : β} (h : Emits t site (throw err) x) : False := by
  obtain ⟨s, s', -, hrun⟩ := h
  rw [runAt_throw] at hrun
  cases hrun

theorem bind {e : Emit β} {f : β → Emit γ} {y : γ} (he : Steady e) (h : Emits t site (e >>= f) y) :
    ∃ x, Emits t site e x ∧ Emits t site (f x) y := by
  obtain ⟨s, s'', rfl, hrun⟩ := h
  obtain ⟨x, s', hx, hy⟩ := exists_of_runAt_bind hrun
  have hs : s'.scopes = s.scopes := by
    have := he site s
    rwa [hx] at this
  exact ⟨x, ⟨s, s', rfl, hx⟩, ⟨s', s'', hs, hy⟩⟩

theorem within {e : Emit β} {other : Site} {x : β} (h : Emits t other (Emit.within site e) x) :
    Emits t site e x := h

theorem placeLabel {l : Label} (h : Emits t site (Emit.placeLabel l) items) :
    items = [.hanging l] := by
  obtain ⟨s, s', -, hrun⟩ := h
  rw [runAt_placeLabel] at hrun
  cases hrun
  rfl

theorem concat_nil (h : Emits t site (Emit.concat []) items) : items = [] :=
  pure h

/-- What is only rearranged in the end may come from a computation of any kind. -/
theorem map {e : Emit β} {f : β → γ} {y : γ} (h : Emits t site (e >>= fun x => Pure.pure (f x)) y) :
    ∃ x, Emits t site e x ∧ y = f x := by
  obtain ⟨s, s'', rfl, hrun⟩ := h
  obtain ⟨x, s', hx, hy⟩ := exists_of_runAt_bind hrun
  rw [runAt_pure] at hy
  cases hy
  exact ⟨x, of_runAt hx, rfl⟩

theorem openScope {outer : Nat} {f : Nat → Emit β} {x : β}
    (h : Emits t site (Emit.openScope outer >>= f) x) :
    Emits (t.child outer).2 site (f t.size) x := by
  obtain ⟨s, s', rfl, hrun⟩ := h
  rw [runAt_bind_ok (runAt_openScope outer site s)] at hrun
  exact of_runAt hrun

theorem bindName {scope : Nat} {name : String} {f : Unit → Emit β} {x : β}
    (h : Emits t site (Emit.bindName scope name >>= f) x) :
    Emits (t.bind scope name) site (f ()) x := by
  obtain ⟨s, s', rfl, hrun⟩ := h
  rw [runAt_bind_ok (runAt_bindName scope name site s)] at hrun
  exact of_runAt hrun

theorem concat_cons {e : Emit (List Item)} {es : List (Emit (List Item))} (he : Steady e)
    (h : Emits t site (Emit.concat (e :: es)) items) :
    ∃ first rest, Emits t site e first ∧ Emits t site (Emit.concat es) rest ∧
      items = first ++ rest := by
  obtain ⟨first, hfirst, h⟩ := bind he h
  obtain ⟨rest, hrest, rfl⟩ := map h
  exact ⟨first, rest, hfirst, hrest, rfl⟩

theorem concat_append {es es' : List (Emit (List Item))} (hes : Steady (Emit.concat es))
    (h : Emits t site (Emit.concat (es ++ es')) items) :
    ∃ first rest, Emits t site (Emit.concat es) first ∧ Emits t site (Emit.concat es') rest ∧
      items = first ++ rest := by
  rw [Emit.concat_append] at h
  obtain ⟨first, hfirst, h⟩ := bind hes h
  obtain ⟨rest, hrest, rfl⟩ := map h
  exact ⟨first, rest, hfirst, hrest, rfl⟩

end Emits

/-! ## The forms of an operation that has several -/

/-- The encodings of a copy: the sum with zero or the product with one, either way round. -/
def copyForms (source target : Lowered) : List (List Item) :=
  let zero := Lowered.fixed .immediate (.plain (.num 0))
  let one := Lowered.fixed .immediate (.plain (.num 1))
  [Lowered.instruction .add [source, zero, target], Lowered.instruction .add [zero, source, target],
    Lowered.instruction .multiply [source, one, target],
    Lowered.instruction .multiply [one, source, target]]

/-- As `Emits`, where at least `n` labels have been handed out before. -/
def EmitsFrom (n : Nat) (t : ScopeTable) (site : Site) (e : Emit β) (x : β) : Prop :=
  ∃ s s', s.scopes = t ∧ n ≤ s.labels.size ∧ e.runAt site s = (.ok x, s')

namespace EmitsFrom

variable {n : Nat} {t : ScopeTable} {site : Site} {items : List Item} {l : Lowered}

theorem of_runAt {e : Emit β} {s s' : EmitState} {x : β} (h : e.runAt site s = (.ok x, s')) :
    EmitsFrom s.labels.size s.scopes site e x :=
  ⟨s, s', rfl, Nat.le_refl _, h⟩

theorem emits {e : Emit β} {x : β} (h : EmitsFrom n t site e x) : Emits t site e x := by
  obtain ⟨s, s', ht, -, hrun⟩ := h
  exact ⟨s, s', ht, hrun⟩

theorem of_emits {e : Emit β} {x : β} (h : Emits t site e x) : EmitsFrom 0 t site e x := by
  obtain ⟨s, s', ht, hrun⟩ := h
  exact ⟨s, s', ht, Nat.zero_le _, hrun⟩

theorem pure {x y : β} (h : EmitsFrom n t site (Pure.pure x) y) : y = x :=
  h.emits.pure

theorem throw {err : EmitError} {x : β} (h : EmitsFrom n t site (throw err) x) : False :=
  h.emits.throw

theorem bind {e : Emit β} {f : β → Emit γ} {y : γ} (he : Moves MoreLabels e) (h : EmitsFrom n t site (e >>= f) y) :
    ∃ x, EmitsFrom n t site e x ∧ EmitsFrom n t site (f x) y := by
  obtain ⟨s, s'', rfl, hn, hrun⟩ := h
  obtain ⟨x, s', hx, hy⟩ := exists_of_runAt_bind hrun
  have hs : s'.scopes = s.scopes ∧ s.labels.size ≤ s'.labels.size := by
    have := he site s
    rwa [hx] at this
  exact ⟨x, ⟨s, s', rfl, hn, hx⟩, ⟨s', s'', hs.1, Nat.le_trans hn hs.2, hy⟩⟩

/-- A label that is handed out is none of those that were. -/
theorem fresh {name : String} {f : Label → Emit β} {x : β} (hname : name ≠ "function")
    (h : EmitsFrom n t site (Emit.fresh name >>= f) x) :
    ∃ tag : Label, n ≤ tag.index ∧ EmitsFrom n t site (f tag) x := by
  obtain ⟨tag, ⟨s, s', -, hn, hrun⟩, h⟩ := bind (Moves.fresh hname) h
  rw [runAt_fresh] at hrun
  cases hrun
  exact ⟨_, hn, h⟩

theorem copyLowered {source target : Lowered}
    (h : EmitsFrom n t site (Emit.copyLowered source target) items) :
    items ∈ copyForms source target := by
  obtain ⟨k, -, h⟩ := bind (Moves.pick 4) h
  split at h <;> simp [copyForms, pure h]

/-- An offset is folded when both parts are known and carry no label; else an addition writes it. -/
theorem offsetLowered {base amount : Lowered}
    (h : EmitsFrom n t site (Emit.offsetLowered base amount) l) :
    (base.isFixed = true ∧ amount.isFixed = true ∧ amount.mode = .immediate ∧
        base.cell.labels = [] ∧ amount.cell.labels = [] ∧
        l = .fixed base.mode (.plain (.sum [base.cell.word, amount.cell.word]))) ∨
      ∃ tag : Label, n ≤ tag.index ∧ l = .written base.mode tag
        (Lowered.instruction .add [{ base with mode := .immediate }, amount, .wordAt tag]) := by
  unfold Emit.offsetLowered at h
  split at h
  · next hfold =>
    simp only [Bool.and_eq_true, beq_iff_eq] at hfold
    split at h
    · obtain ⟨_, hthrow, -⟩ := bind (Moves.throw _) h
      exact hthrow.throw.elim
    · next hlabels =>
      simp only [Cell.isLabeled, Bool.or_eq_true, Bool.not_eq_true', not_or, Bool.not_eq_false,
        List.isEmpty_iff] at hlabels
      exact .inl ⟨hfold.1.1, hfold.1.2, hfold.2, hlabels.1, hlabels.2, pure h⟩
  · obtain ⟨tag, htag, h⟩ := fresh (by decide) h
    exact .inr ⟨tag, htag, pure h⟩

theorem derefLowered {pointer : Lowered} (h : EmitsFrom n t site (Emit.derefLowered pointer) l) :
    pointer.mode = .position ∧ ∃ tag : Label, n ≤ tag.index ∧
      ∃ setup ∈ copyForms pointer (.wordAt tag), l = .written .immediate tag setup := by
  unfold Emit.derefLowered at h
  split at h
  · obtain ⟨_, hthrow, -⟩ := bind (Moves.throw _) h
    exact hthrow.throw.elim
  · next hmode =>
    obtain ⟨tag, htag, h⟩ := fresh (by decide) h
    obtain ⟨setup, hsetup, h⟩ := bind (Moves.copyLowered _ _) h
    exact ⟨by simpa using hmode, tag, htag, setup, hsetup.copyLowered, pure h⟩

theorem relabelLowered {mode : Mode} {o : Lowered}
    (h : EmitsFrom n t site (Emit.relabelLowered mode o) l) : o.mode ≠ mode ∧ l = { o with mode } := by
  unfold Emit.relabelLowered at h
  split at h
  · obtain ⟨_, hthrow, -⟩ := bind (Moves.throw _) h
    exact hthrow.throw.elim
  · next hmode => exact ⟨by simpa using hmode, pure h⟩

theorem spillLowered {slot : Lowered} (h : EmitsFrom n t site (Emit.spillLowered slot) l) :
    slot.mode = .relative ∧ ∃ tag : Label, n ≤ tag.index ∧
      ∃ setup ∈ copyForms slot (.wordAt tag), l = .written .position tag setup := by
  unfold Emit.spillLowered at h
  split at h
  · obtain ⟨_, hthrow, -⟩ := bind (Moves.throw _) h
    exact hthrow.throw.elim
  · next hmode =>
    obtain ⟨tag, htag, h⟩ := fresh (by decide) h
    obtain ⟨setup, hsetup, h⟩ := bind (Moves.copyLowered _ _) h
    exact ⟨by simpa using hmode, tag, htag, setup, hsetup.copyLowered, pure h⟩

/-- One parent: the word at `tag` is copied into the operand `up` of a copy that goes through it. -/
theorem followParents_succ {tag : Label} {k : Nat}
    (h : EmitsFrom n t site (Emit.followParents tag (k + 1)) items) :
    ∃ (up : Label) (load code more : List Item), n ≤ up.index ∧ load ∈ copyForms (.wordAt tag) (.wordAt up) ∧
      code ∈ copyForms (.written .position up load) (.wordAt tag) ∧
      EmitsFrom n t site (Emit.followParents tag k) more ∧ items = code ++ more := by
  obtain ⟨parent, hparent, h⟩ := bind (Moves.derefLowered _) h
  obtain ⟨-, up, hup, load, hload, rfl⟩ := hparent.derefLowered
  obtain ⟨parent', hparent', h⟩ := bind (Moves.relabelLowered _ _) h
  obtain ⟨-, rfl⟩ := hparent'.relabelLowered
  obtain ⟨code, hcode, h⟩ := bind (Moves.copyLowered _ _) h
  obtain ⟨more, hmore, h⟩ := bind (Moves.followParents _ _) h
  exact ⟨up, load, code, more, hup, hload, hcode.copyLowered, hmore, pure h⟩

/-- A variable of a fixed record is a folded address; the address of any other one is put together in
the word at `tag`, from the scope pointer on. -/
theorem varLowered {name : String} {scopeSlot : Int}
    (h : EmitsFrom n t site (Emit.varLowered name scopeSlot) l) :
    (∃ location offset, t.resolve site.scope name = some (.fixed location offset) ∧
        l = .fixed .position
          (.plain (.sum [.addr location, .num (Heap.recordHeader + offset : Nat)]))) ∨
      ∃ (levelsUp offset : Nat) (tag : Label) (start climb : List Item) (add : Label) (store : List Item),
        t.resolve site.scope name = some (.dynamic levelsUp offset) ∧ n ≤ tag.index ∧ n ≤ add.index ∧
        start ∈ copyForms (.fixed .relative (.plain (.num scopeSlot))) (.wordAt tag) ∧
        EmitsFrom n t site (Emit.followParents tag levelsUp) climb ∧
        store ∈ copyForms
          (.written .immediate add (Lowered.instruction .add
            [.fixed .immediate (.plain (.num (Heap.recordHeader + offset : Nat))), .wordAt tag,
              .wordAt add]))
          (.wordAt tag) ∧
        l = .written .position tag (start ++ climb ++ store) := by
  obtain ⟨here, hhere, h⟩ := bind Moves.read h
  obtain ⟨s, s', rfl, hn, hrun⟩ := h
  obtain ⟨s₁, s₂, hget, hrun⟩ := exists_of_runAt_bind hrun
  rw [runAt_get] at hget
  cases hget
  obtain ⟨_, _, -, -, hread⟩ := hhere
  rw [runAt_read] at hread
  cases hread
  have h : EmitsFrom n s.scopes site _ l := ⟨s, s', rfl, hn, hrun⟩
  split at h
  · exact h.throw.elim
  · next location offset hresolve =>
    obtain ⟨slot, hslot, h⟩ := bind (Moves.offsetLowered _ _) h
    obtain ⟨-, rfl⟩ := h.relabelLowered
    rcases hslot.offsetLowered with ⟨-, -, -, -, -, rfl⟩ | ⟨tag, -, rfl⟩
    · exact .inl ⟨location, offset, hresolve, rfl⟩
    · obtain ⟨s₁, s₂, -, -, hrun⟩ := hslot
      cases hrun
  · next levelsUp offset hresolve =>
    obtain ⟨tag, htag, h⟩ := fresh (by decide) h
    obtain ⟨start, hstart, h⟩ := bind (Moves.copyLowered _ _) h
    obtain ⟨climb, hclimb, h⟩ := bind (Moves.followParents _ _) h
    obtain ⟨slot, hslot, h⟩ := bind (Moves.offsetLowered _ _) h
    rcases hslot.offsetLowered with ⟨-, -, hmode, -⟩ | ⟨add, hadd, rfl⟩
    · cases hmode
    · obtain ⟨store, hstore, h⟩ := bind (Moves.copyLowered _ _) h
      exact .inr ⟨levelsUp, offset, tag, start, climb, add, store, hresolve, htag, hadd, hstart.copyLowered,
        hclimb, hstore.copyLowered, pure h⟩

theorem lowerAll_cons {o : Operand} {os : List Operand} {ls : List Lowered}
    (h : EmitsFrom n t site (Emit.lowerAll (o :: os)) ls) :
    ∃ l rest, EmitsFrom n t site (Emit.lower o) l ∧ EmitsFrom n t site (Emit.lowerAll os) rest ∧
      ls = l :: rest := by
  obtain ⟨l, hl, h⟩ := bind (Moves.lower _) h
  obtain ⟨rest, hrest, h⟩ := bind (Moves.lowerAll _) h
  exact ⟨l, rest, hl, hrest, pure h⟩

theorem length_lowerAll {os : List Operand} {ls : List Lowered} (h : EmitsFrom n t site (Emit.lowerAll os) ls) :
    ls.length = os.length := by
  induction os generalizing ls with
  | nil => exact congrArg List.length h.pure
  | cons o os ih =>
    obtain ⟨l, rest, -, hrest, rfl⟩ := h.lowerAll_cons
    rw [List.length_cons, List.length_cons, ih hrest]

theorem instruction {op : Opcode} {operands : List Operand}
    (h : EmitsFrom n t site (Emit.instruction op operands) items) :
    ∃ ls, EmitsFrom n t site (Emit.lowerAll operands) ls ∧ items = Lowered.instruction op ls := by
  obtain ⟨ls, hls, h⟩ := bind (Moves.lowerAll _) h
  exact ⟨ls, hls, pure h⟩

theorem copy {source target : Operand} (h : EmitsFrom n t site (Emit.copy source target) items) :
    ∃ ls lt, EmitsFrom n t site (Emit.lower source) ls ∧ EmitsFrom n t site (Emit.lower target) lt ∧
      items ∈ copyForms ls lt := by
  obtain ⟨ls, hls, h⟩ := bind (Moves.lower _) h
  obtain ⟨lt, hlt, h⟩ := bind (Moves.lower _) h
  exact ⟨ls, lt, hls, hlt, h.copyLowered⟩

end EmitsFrom

namespace Emits

variable {t : ScopeTable} {site : Site} {items : List Item} {l : Lowered}

theorem offsetLowered {base amount : Lowered}
    (h : Emits t site (Emit.offsetLowered base amount) l) :
    (base.isFixed = true ∧ amount.isFixed = true ∧ amount.mode = .immediate ∧
        base.cell.labels = [] ∧ amount.cell.labels = [] ∧
        l = .fixed base.mode (.plain (.sum [base.cell.word, amount.cell.word]))) ∨
      ∃ tag, l = .written base.mode tag
        (Lowered.instruction .add [{ base with mode := .immediate }, amount, .wordAt tag]) := by
  rcases (EmitsFrom.of_emits h).offsetLowered with hfolded | ⟨tag, -, hl⟩
  · exact .inl hfolded
  · exact .inr ⟨tag, hl⟩

theorem derefLowered {pointer : Lowered} (h : Emits t site (Emit.derefLowered pointer) l) :
    pointer.mode = .position ∧
      ∃ tag, ∃ setup ∈ copyForms pointer (.wordAt tag), l = .written .immediate tag setup := by
  obtain ⟨hmode, tag, -, hsetup⟩ := (EmitsFrom.of_emits h).derefLowered
  exact ⟨hmode, tag, hsetup⟩

theorem relabelLowered {mode : Mode} {o : Lowered}
    (h : Emits t site (Emit.relabelLowered mode o) l) : o.mode ≠ mode ∧ l = { o with mode } :=
  (EmitsFrom.of_emits h).relabelLowered

theorem spillLowered {slot : Lowered} (h : Emits t site (Emit.spillLowered slot) l) :
    slot.mode = .relative ∧
      ∃ tag, ∃ setup ∈ copyForms slot (.wordAt tag), l = .written .position tag setup := by
  obtain ⟨hmode, tag, -, hsetup⟩ := (EmitsFrom.of_emits h).spillLowered
  exact ⟨hmode, tag, hsetup⟩

theorem followParents_zero {tag : Label} (h : Emits t site (Emit.followParents tag 0) items) :
    items = [] :=
  pure h

theorem followParents_succ {tag : Label} {n : Nat}
    (h : Emits t site (Emit.followParents tag (n + 1)) items) :
    ∃ up load code more, load ∈ copyForms (.wordAt tag) (.wordAt up) ∧
      code ∈ copyForms (.written .position up load) (.wordAt tag) ∧
      Emits t site (Emit.followParents tag n) more ∧ items = code ++ more := by
  obtain ⟨up, load, code, more, -, hload, hcode, hmore, hitems⟩ := (EmitsFrom.of_emits h).followParents_succ
  exact ⟨up, load, code, more, hload, hcode, hmore.emits, hitems⟩

theorem varLowered {name : String} {scopeSlot : Int}
    (h : Emits t site (Emit.varLowered name scopeSlot) l) :
    (∃ location offset, t.resolve site.scope name = some (.fixed location offset) ∧
        l = .fixed .position
          (.plain (.sum [.addr location, .num (Heap.recordHeader + offset : Nat)]))) ∨
      ∃ levelsUp offset tag start climb add store,
        t.resolve site.scope name = some (.dynamic levelsUp offset) ∧
        start ∈ copyForms (.fixed .relative (.plain (.num scopeSlot))) (.wordAt tag) ∧
        Emits t site (Emit.followParents tag levelsUp) climb ∧
        store ∈ copyForms
          (.written .immediate add (Lowered.instruction .add
            [.fixed .immediate (.plain (.num (Heap.recordHeader + offset : Nat))), .wordAt tag,
              .wordAt add]))
          (.wordAt tag) ∧
        l = .written .position tag (start ++ climb ++ store) := by
  rcases (EmitsFrom.of_emits h).varLowered with hfixed |
    ⟨levelsUp, offset, tag, start, climb, add, store, hresolve, -, -, hstart, hclimb, hstore, hl⟩
  · exact .inl hfixed
  · exact .inr ⟨levelsUp, offset, tag, start, climb, add, store, hresolve, hstart, hclimb.emits, hstore, hl⟩

/-- An operand whose variables do not all resolve is not lowered. -/
theorem resolves {o : Operand} (h : Emits t site (Emit.lower o) l) :
    ∀ name ∈ o.vars, ∃ r, t.resolve site.scope name = some r := by
  induction o generalizing l with
  | const mode cell => exact fun _ hname => nomatch hname
  | offset base amount ihbase ihamount =>
    obtain ⟨lbase, hbase, h⟩ := bind (Moves.lower _) h
    obtain ⟨lamount, hamount, -⟩ := bind (Moves.lower _) h
    intro name hname
    rcases List.mem_append.1 hname with hname | hname
    · exact ihbase hbase name hname
    · exact ihamount hamount name hname
  | deref o ih =>
    obtain ⟨_, ho, -⟩ := bind (Moves.lower _) h
    exact ih ho
  | relabel mode o ih =>
    obtain ⟨_, ho, -⟩ := bind (Moves.lower _) h
    exact ih ho
  | spill o ih =>
    obtain ⟨_, ho, -⟩ := bind (Moves.lower _) h
    exact ih ho
  | var name slot =>
    intro name' hname
    obtain rfl := List.mem_singleton.1 hname
    rcases varLowered h with ⟨_, _, hr, -⟩ | ⟨_, _, _, _, _, _, _, hr, -⟩
    · exact ⟨_, hr⟩
    · exact ⟨_, hr⟩

theorem lowerAll_nil {ls : List Lowered} (h : Emits t site (Emit.lowerAll []) ls) : ls = [] :=
  pure h

theorem lowerAll_cons {o : Operand} {os : List Operand} {ls : List Lowered}
    (h : Emits t site (Emit.lowerAll (o :: os)) ls) :
    ∃ l rest, Emits t site (Emit.lower o) l ∧ Emits t site (Emit.lowerAll os) rest ∧
      ls = l :: rest := by
  obtain ⟨l, rest, hl, hrest, hls⟩ := (EmitsFrom.of_emits h).lowerAll_cons
  exact ⟨l, rest, hl.emits, hrest.emits, hls⟩

theorem resolves_all {os : List Operand} {ls : List Lowered} (h : Emits t site (Emit.lowerAll os) ls) :
    ∀ o ∈ os, ∀ name ∈ o.vars, ∃ r, t.resolve site.scope name = some r := by
  induction os generalizing ls with
  | nil => exact fun _ ho => nomatch ho
  | cons o rest ih =>
    obtain ⟨l, ls, hl, hls, rfl⟩ := lowerAll_cons h
    intro o' ho'
    rcases List.mem_cons.1 ho' with rfl | ho'
    · exact hl.resolves
    · exact ih hls o' ho'

theorem instruction {op : Opcode} {operands : List Operand}
    (h : Emits t site (Emit.instruction op operands) items) :
    ∃ ls, Emits t site (Emit.lowerAll operands) ls ∧ items = Lowered.instruction op ls := by
  obtain ⟨ls, hls, hitems⟩ := (EmitsFrom.of_emits h).instruction
  exact ⟨ls, hls.emits, hitems⟩

theorem copy {source target : Operand} (h : Emits t site (Emit.copy source target) items) :
    ∃ ls lt, Emits t site (Emit.lower source) ls ∧ Emits t site (Emit.lower target) lt ∧
      items ∈ copyForms ls lt := by
  obtain ⟨ls, lt, hls, hlt, hitems⟩ := (EmitsFrom.of_emits h).copy
  exact ⟨ls, lt, hls.emits, hlt.emits, hitems⟩

theorem addTo {amount out : Operand} (h : Emits t site (Emit.addTo amount out) items) :
    Emits t site (Emit.add out amount out) items ∨ Emits t site (Emit.add amount out out) items := by
  obtain ⟨k, -, h⟩ := bind (Moves.pick 2) h
  split at h
  · exact .inl h
  · exact .inr h

/-- A jump tests a number that is zero for zero, or one that is not zero for not being zero. -/
theorem jump {target : Operand} (h : Emits t site (Emit.jump target) items) :
    Emits t site (Emit.jumpIfFalse (.int 0) target) items ∨
      ∃ n : Int, n ≠ 0 ∧ Emits t site (Emit.jumpIfTrue (.int n) target) items := by
  obtain ⟨k, -, h⟩ := bind (Moves.pick 3) h
  split at h
  · exact .inl h
  · obtain ⟨n, hn, h⟩ := bind Moves.pickNonzero h
    refine .inr ⟨n, ?_, h⟩
    obtain ⟨s, s', -, hrun⟩ := hn
    rw [runAt_pickNonzero] at hrun
    rw [← Except.ok.inj (congrArg Prod.fst hrun)]
    exact s.choice.nonzero_ne_zero

end Emits

end Emit

end Lamcode
