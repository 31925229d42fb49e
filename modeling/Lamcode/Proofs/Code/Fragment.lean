import Lamcode.Proofs.Code.Instruction
import Lamcode.Proofs.Emit.Bodies

/-!
# Lamcode.Proofs.Code.Fragment — where the code of a tree stands

The code of a node is in two places: what runs in place, and the function bodies in it, which are placed
elsewhere. `FragmentStands` gives both. Code of a node that stands in memory is taken apart here, node by node, into the
code of its parts and the addresses where they stand; everything later reads code through these lemmas and does not
look at items again.
-/

namespace Lamcode

open Layout Emit Operand

/-! ## Trees leave the scopes alone -/

namespace Emit.Moves

variable {R : EmitState → EmitState → Prop} [Harmless R]

theorem fragmentCode {pieces : List (Emit (List Item))} (h : ∀ e ∈ pieces, Moves R e) :
    Moves R (Fragment.code pieces) :=
  bind (concat h) fun _ => pure _

theorem fragmentNil : Moves R (Fragment.concat []) :=
  pure _

theorem fragmentCons {e : Emit Fragment} {es : List (Emit Fragment)} (he : Moves R e)
    (hes : Moves R (Fragment.concat es)) : Moves R (Fragment.concat (e :: es)) :=
  bind he fun _ => bind hes fun _ => pure _

end Emit.Moves

namespace Emit.Steady

mutual

@[simp] theorem expr : ∀ e : Expr Site, Steady e.emit
  | .number site value => by
    rw [Expr.emit]
    exact .within _ (.fragmentCode (by simp))
  | .var site name => by
    rw [Expr.emit]
    exact .within _ (.fragmentCode (by simp))
  | .group site inner => by
    rw [Expr.emit]
    exact .within _ (expr inner)
  | .tuple site items => by
    rw [Expr.emit]
    have hopen : Steady (Fragment.code ([Emit.copy (rel (-2)) (rel 0), Emit.moveStack 2,
        Emit.copy (.wordAt .ramPointer) (rel (-1)), Emit.writeToRam (.int items.length)] ++
          if items.isEmpty then [] else [Emit.addTo (.int items.length) (.wordAt .ramPointer)])) :=
      .fragmentCode (by split <;> simp)
    have hclose : Steady (Fragment.code [Emit.moveStack (-2), Emit.copy (rel 1) (rel 0)]) :=
      .fragmentCode (by simp)
    exact .within _ (.fragmentCons hopen (.fragmentCons (exprItems 0 items)
      (.fragmentCons hclose .fragmentNil)))
  | .call site f x => by
    rw [Expr.emit]
    exact .within _ (.bind (fresh _) fun _ => .fragmentCons (.fragmentCode (by simp))
      (.fragmentCons (expr f) (.fragmentCons (.fragmentCode (by simp)) (.fragmentCons (expr x)
        (.fragmentCons (.fragmentCode (by simp)) .fragmentNil)))))
  | .function site param body => by
    rw [Expr.emit]
    exact .within _ (.bind (fresh _) fun _ => .bind (expr body) fun _ =>
      .bind (.concat (by simp)) fun _ => .bind (.moveStack _) fun _ => .bind (.concat (by simp)) fun _ =>
        .pure _)

@[simp] theorem exprItems : ∀ (index : Nat) (items : List (Expr Site)), Steady (Expr.emitItems index items)
  | _, [] => by
    rw [Expr.emitItems]
    exact .pure _
  | index, e :: rest => by
    rw [Expr.emitItems]
    exact .fragmentCons (expr e) (.fragmentCons (.fragmentCode (by simp))
      (.fragmentCons (exprItems (index + 1) rest) .fragmentNil))

end

mutual

@[simp] theorem assignment : ∀ a : Assignment Site Header, Steady a.emit
  | .mk head name value clauses => by
    rw [Assignment.emit]
    exact .bind (fresh _) fun _ => .within _ (.fragmentCons (.fragmentCode (by simp))
      (.fragmentCons (assignments head.own clauses) (.fragmentCons (expr value)
        (.fragmentCons (.fragmentCode (by simp)) .fragmentNil))))

@[simp] theorem assignments (s : Nat) : ∀ as : List (Assignment Site Header), Steady (Assignment.emitAll s as)
  | [] => by
    rw [Assignment.emitAll]
    exact .pure _
  | a :: rest => by
    rw [Assignment.emitAll]
    exact .fragmentCons (assignment a) (.fragmentCons (.within _ (.fragmentCode (by simp)))
      (.fragmentCons (assignments s rest) .fragmentNil))

end

end Emit.Steady

namespace Emit.EmitsBetween

variable {t : ScopeTable} {site : Site} {bs bs' : List Label} {frag : Fragment}

theorem fragmentCons {e : Emit Fragment} {es : List (Emit Fragment)} (he : Steady e)
    (h : EmitsBetween t site bs bs' (Fragment.concat (e :: es)) frag) :
    ∃ first rest bs₁, EmitsBetween t site bs bs₁ e first ∧
      EmitsBetween t site bs₁ bs' (Fragment.concat es) rest ∧ frag = first.append rest := by
  obtain ⟨first, bs₁, hfirst, h⟩ := h.bind he
  obtain ⟨rest, hrest, rfl⟩ := h.map
  exact ⟨first, rest, bs₁, hfirst, hrest, rfl⟩

theorem fragmentCode {pieces : List (Emit (List Item))}
    (h : EmitsBetween t site bs bs' (Fragment.code pieces) frag) :
    ∃ items, EmitsBetween t site bs bs' (concat pieces) items ∧ frag = .ofItems items :=
  h.map

/-- What a function is written as: the code that makes a closure, and the body with the bodies in it behind it. The
label of the body comes before those of the bodies in it. -/
theorem function {other : Site} {param : String} {body : Expr Site}
    (h : EmitsBetween t other bs bs' (Expr.emit (.function site param body)) frag) :
    ∃ entry inner closure enter leave, EmitsBetween t site (bs ++ [entry]) bs' body.emit inner ∧
      Emits t site (concat [Emit.copy (.wordAt .ramPointer) (rel 0), Emit.writeToRam (.addressOf entry),
        Emit.writeToRam (rel (-2))]) closure ∧
      Emits t site (moveStack 2) enter ∧
      Emits t site (concat [moveStack (-2), Emit.copy (rel 2) (rel 0), Emit.jump (rel 1)]) leave ∧
      frag = ⟨closure, .hanging entry :: enter ++ inner.inPlace ++ leave ++ inner.hoisted⟩ := by
  rw [Expr.emit] at h
  obtain ⟨entry, h⟩ := h.within.fresh_function
  obtain ⟨inner, bs₁, hinner, h⟩ := h.bind (.expr body)
  obtain ⟨closure, hclosure, h⟩ := h.bind_quiet (.concat (by simp)) (.concat (by simp))
  obtain ⟨enter, henter, h⟩ := h.bind_quiet (.moveStack 2) (.moveStack 2)
  obtain ⟨leave, hleave, rfl⟩ := h.map
  obtain rfl := hleave.eq_of_quiet (.concat (by simp))
  exact ⟨entry, inner, closure, enter, leave, hinner, hclosure, henter, hleave.emits, rfl⟩

end Emit.EmitsBetween

namespace Emit.Emits

variable {t : ScopeTable} {site : Site} {frag : Fragment}

theorem fragmentCons {e : Emit Fragment} {es : List (Emit Fragment)} (he : Steady e)
    (h : Emits t site (Fragment.concat (e :: es)) frag) :
    ∃ first rest, Emits t site e first ∧ Emits t site (Fragment.concat es) rest ∧ frag = first.append rest := by
  obtain ⟨bs, bs', h⟩ := h.exists_between
  obtain ⟨first, rest, bs₁, hfirst, hrest, rfl⟩ := h.fragmentCons he
  exact ⟨first, rest, hfirst.emits, hrest.emits, rfl⟩

theorem fragmentLast {e : Emit Fragment} (h : Emits t site (Fragment.concat [e]) frag) : Emits t site e frag := by
  obtain ⟨last, hlast, rfl⟩ := map (f := fun code => Fragment.append code (.ofItems [])) h
  simpa [Fragment.append, Fragment.ofItems] using hlast

theorem fragmentCode {pieces : List (Emit (List Item))} (h : Emits t site (Fragment.code pieces) frag) :
    ∃ items, Emits t site (concat pieces) items ∧ frag = .ofItems items :=
  h.map

theorem function {other : Site} {param : String} {body : Expr Site}
    (h : Emits t other (Expr.emit (.function site param body)) frag) :
    ∃ entry inner closure enter leave, Emits t site body.emit inner ∧
      Emits t site (concat [Emit.copy (.wordAt .ramPointer) (rel 0), Emit.writeToRam (.addressOf entry),
        Emit.writeToRam (rel (-2))]) closure ∧
      Emits t site (moveStack 2) enter ∧
      Emits t site (concat [moveStack (-2), Emit.copy (rel 2) (rel 0), Emit.jump (rel 1)]) leave ∧
      frag = ⟨closure, .hanging entry :: enter ++ inner.inPlace ++ leave ++ inner.hoisted⟩ := by
  obtain ⟨bs, bs', h⟩ := h.exists_between
  obtain ⟨entry, inner, closure, enter, leave, hinner, hcode⟩ := h.function
  exact ⟨entry, inner, closure, enter, leave, hinner.emits, hcode⟩

end Emit.Emits

/-! ## Code of a tree that stands in memory -/

variable {L : Layout} {t : ScopeTable} {site other : Site} {a a' h h' : Nat} {bs bs' : List Label}

/-- The code that the computation writes stands in memory: what runs in place from `a` up to `a'`, the function
bodies from `h` up to `h'`. -/
def FragmentStands (L : Layout) (t : ScopeTable) (site : Site) (e : Emit Fragment) (a a' h h' : Nat) :
    Prop :=
  ∃ frag, Emits t site e frag ∧ L.CodeAt a frag.inPlace ∧ a' = a + Item.size frag.inPlace ∧
    L.CodeAt h frag.hoisted ∧ h' = h + Item.size frag.hoisted

/-- The code stands in memory, and the labels of function bodies are `bs` before it is written and `bs'` after. -/
def FragmentBetween (L : Layout) (t : ScopeTable) (site : Site) (bs bs' : List Label) (e : Emit Fragment)
    (a a' h h' : Nat) : Prop :=
  ∃ frag, EmitsBetween t site bs bs' e frag ∧ L.CodeAt a frag.inPlace ∧ a' = a + Item.size frag.inPlace ∧
    L.CodeAt h frag.hoisted ∧ h' = h + Item.size frag.hoisted

/-- The code of a function stands from `h` up to `h'`: what a call runs, and then the bodies in it. -/
def FragmentStands.BodyStands (L : Layout) (t : ScopeTable) (body : Expr Site) (h h' : Nat) : Prop :=
  ∃ site h₁ h₂ h₃, Stands L t site (moveStack 2) h h₁ ∧ FragmentStands L t site body.emit h₁ h₂ h₃ h' ∧
    Stands L t site (concat [moveStack (-2), copy (rel 2) (rel 0), jump (rel 1)]) h₂ h₃

namespace FragmentBetween

theorem stands {e : Emit Fragment} (hs : FragmentBetween L t site bs bs' e a a' h h') :
    FragmentStands L t site e a a' h h' := by
  obtain ⟨frag, hfrag, hplaced⟩ := hs
  exact ⟨frag, hfrag.emits, hplaced⟩

theorem within {e : Emit Fragment} (hs : FragmentBetween L t other bs bs' (Emit.within site e) a a' h h') :
    FragmentBetween L t site bs bs' e a a' h h' := hs

theorem fresh {name : String} (hname : name ≠ "function") {f : Label → Emit Fragment}
    (hs : FragmentBetween L t site bs bs' (Emit.fresh name >>= f) a a' h h') :
    ∃ l, FragmentBetween L t site bs bs' (f l) a a' h h' := by
  obtain ⟨frag, hfrag, hplaced⟩ := hs
  obtain ⟨l, -, hfrag⟩ := hfrag.bind_quiet (.fresh _) (.fresh hname)
  exact ⟨l, frag, hfrag, hplaced⟩

theorem nil (hs : FragmentBetween L t site bs bs' (pure (.ofItems [])) a a' h h') :
    a' = a ∧ h' = h ∧ bs' = bs := by
  obtain ⟨frag, hfrag, -, rfl, -, rfl⟩ := hs
  obtain rfl := hfrag.eq_of_quiet (.pure _)
  obtain rfl := hfrag.emits.pure
  exact ⟨rfl, rfl, rfl⟩

theorem cons {e : Emit Fragment} {es : List (Emit Fragment)} (he : Steady e)
    (hs : FragmentBetween L t site bs bs' (Fragment.concat (e :: es)) a a' h h') :
    ∃ a₁ h₁ bs₁, FragmentBetween L t site bs bs₁ e a a₁ h h₁ ∧
      FragmentBetween L t site bs₁ bs' (Fragment.concat es) a₁ a' h₁ h' := by
  obtain ⟨frag, hfrag, hcode, rfl, hbodies, rfl⟩ := hs
  obtain ⟨first, rest, bs₁, hfirst, hrest, rfl⟩ := hfrag.fragmentCons he
  simp only [Fragment.append, codeAt_append] at hcode hbodies
  refine ⟨_, _, bs₁, ⟨first, hfirst, hcode.1, rfl, hbodies.1, rfl⟩, rest, hrest, hcode.2, ?_, hbodies.2, ?_⟩
  · simp only [Fragment.append, Item.size_append, Nat.add_assoc]
  · simp only [Fragment.append, Item.size_append, Nat.add_assoc]

theorem code {pieces : List (Emit (List Item))} (hpieces : ∀ e ∈ pieces, Quiet e)
    (hs : FragmentBetween L t site bs bs' (Fragment.code pieces) a a' h h') :
    Stands L t site (concat pieces) a a' ∧ h' = h ∧ bs' = bs := by
  obtain ⟨frag, hfrag, hcode, rfl, -, rfl⟩ := hs
  obtain ⟨items, hitems, rfl⟩ := hfrag.fragmentCode
  obtain rfl := hitems.eq_of_quiet (.concat hpieces)
  exact ⟨⟨items, hitems.emits, hcode, rfl⟩, rfl, rfl⟩

/-- A list of code and trees in turns begins with code. -/
theorem code_cons {pieces : List (Emit (List Item))} {es : List (Emit Fragment)}
    (hpieces : ∀ (R : EmitState → EmitState → Prop) [Harmless R], ∀ e ∈ pieces, Moves R e)
    (hs : FragmentBetween L t site bs bs' (Fragment.concat (Fragment.code pieces :: es)) a a' h h') :
    ∃ a₁, Stands L t site (concat pieces) a a₁ ∧
      FragmentBetween L t site bs bs' (Fragment.concat es) a₁ a' h h' := by
  obtain ⟨a₁, h₁, bs₁, hfirst, hrest⟩ := hs.cons (.fragmentCode (hpieces _))
  obtain ⟨hcode, rfl, rfl⟩ := hfirst.code (hpieces _)
  exact ⟨a₁, hcode, hrest⟩

/-- A list of code and trees in turns ends with code. -/
theorem code_last {pieces : List (Emit (List Item))}
    (hpieces : ∀ (R : EmitState → EmitState → Prop) [Harmless R], ∀ e ∈ pieces, Moves R e)
    (hs : FragmentBetween L t site bs bs' (Fragment.concat [Fragment.code pieces]) a a' h h') :
    Stands L t site (concat pieces) a a' ∧ h' = h ∧ bs' = bs := by
  obtain ⟨a₁, hcode, hrest⟩ := hs.code_cons hpieces
  obtain ⟨rfl, rfl, rfl⟩ := hrest.nil
  exact ⟨hcode, rfl, rfl⟩

theorem group {e : Expr Site} (hs : FragmentBetween L t other bs bs' (Expr.emit (.group site e)) a a' h h') :
    FragmentBetween L t site bs bs' e.emit a a' h h' := by
  rw [Expr.emit] at hs
  exact hs

theorem tuple {items : List (Expr Site)}
    (hs : FragmentBetween L t other bs bs' (Expr.emit (.tuple site items)) a a' h h') :
    ∃ a₁ a₂,
      Stands L t site (concat ([copy (rel (-2)) (rel 0), moveStack 2,
        copy (.wordAt .ramPointer) (rel (-1)), writeToRam (.int items.length)] ++
          if items.isEmpty then [] else [addTo (.int items.length) (.wordAt .ramPointer)])) a a₁ ∧
      FragmentBetween L t site bs bs' (Expr.emitItems 0 items) a₁ a₂ h h' ∧
      Stands L t site (concat [moveStack (-2), copy (rel 1) (rel 0)]) a₂ a' := by
  rw [Expr.emit] at hs
  obtain ⟨a₁, hopen, hs⟩ := hs.within.code_cons fun _ _ => by split <;> simp
  obtain ⟨a₂, h₁, bs₁, hitems, hs⟩ := hs.cons (.exprItems 0 items)
  obtain ⟨hclose, rfl, rfl⟩ := hs.code_last fun _ _ => by simp
  exact ⟨a₁, a₂, hopen, hitems, hclose⟩

theorem items_cons {index : Nat} {e : Expr Site} {rest : List (Expr Site)}
    (hs : FragmentBetween L t site bs bs' (Expr.emitItems index (e :: rest)) a a' h h') :
    ∃ a₁ a₂ h₁ bs₁,
      FragmentBetween L t site bs bs₁ e.emit a a₁ h h₁ ∧
      Stands L t site (concat [copy (rel 0)
        (.offset (.spill (rel (-1))) (.int (Heap.tupleHeader + index)))]) a₁ a₂ ∧
      FragmentBetween L t site bs₁ bs' (Expr.emitItems (index + 1) rest) a₂ a' h₁ h' := by
  rw [Expr.emitItems] at hs
  obtain ⟨a₁, h₁, bs₁, he, hs⟩ := hs.cons (.expr e)
  obtain ⟨a₂, hstore, hs⟩ := hs.code_cons fun _ _ => by simp
  obtain ⟨a₃, h₂, bs₂, hrest, hs⟩ := hs.cons (.exprItems _ rest)
  obtain ⟨rfl, rfl, rfl⟩ := hs.nil
  exact ⟨a₁, a₂, h₁, bs₁, he, hstore, hrest⟩

theorem call {f x : Expr Site}
    (hs : FragmentBetween L t other bs bs' (Expr.emit (.call site f x)) a a' h h') :
    ∃ resume a₁ a₂ a₃ a₄ a₅ a₆ h₁ bs₁,
      Stands L t site (concat [copy (rel (-2)) (rel 1), moveStack 3]) a a₁ ∧
      FragmentBetween L t site bs bs₁ f.emit a₁ a₂ h h₁ ∧
      Stands L t site (concat [copy (rel 0) (rel (-3))]) a₂ a₃ ∧
      FragmentBetween L t site bs₁ bs' x.emit a₃ a₄ h₁ h' ∧
      Stands L t site (concat [copy (rel 0) (rel (-1)), copy (.wordAt .ramPointer) (rel 0),
        writeToRam (Operand.offset (.int Heap.closureScope) (rel (-3))).toPointer,
        writeToRam (rel (-1)), copy (.addressOf resume) (rel 1)]) a₄ a₅ ∧
      Stands L t site (jump (Operand.offset (.int Heap.closureCode) (rel (-3))).toPointer) a₅ a₆ ∧
      L.addresses[resume.index]? = some a₆ ∧
      Stands L t site (concat [moveStack (-3), copy (rel 3) (rel 0)]) a₆ a' := by
  rw [Expr.emit] at hs
  obtain ⟨resume, hs⟩ := hs.within.fresh (by decide)
  obtain ⟨a₁, hopen, hs⟩ := hs.code_cons fun _ _ => by simp
  obtain ⟨a₂, h₁, bs₁, hf, hs⟩ := hs.cons (.expr f)
  obtain ⟨a₃, hmid, hs⟩ := hs.code_cons fun _ _ => by simp
  obtain ⟨a₄, h₂, bs₂, hx, hs⟩ := hs.cons (.expr x)
  obtain ⟨hclose, rfl, rfl⟩ := hs.code_last fun _ _ => by simp
  obtain ⟨a₅, hprepare, hgo⟩ := hclose.concat_append [_, _, _, _, _] (.concat (by simp))
  obtain ⟨a₆, hjump, hback⟩ := hgo.concat_cons (.jump _)
  obtain ⟨a₇, hlabel, hleave⟩ := hback.concat_cons (.placeLabel _)
  obtain ⟨rfl, hresume⟩ := hlabel.placeLabel
  exact ⟨resume, a₁, a₂, a₃, a₄, a₅, a₇, h₁, bs₁, hopen, hf, hmid, hx, hprepare, hjump, hresume, hleave⟩

theorem function {param : String} {body : Expr Site}
    (hs : FragmentBetween L t other bs bs' (Expr.emit (.function site param body)) a a' h h') :
    ∃ (entry : Label) (inner : Fragment), EmitsBetween t site (bs ++ [entry]) bs' body.emit inner ∧
      L.addresses[entry.index]? = some h ∧
      Stands L t site (concat [copy (.wordAt .ramPointer) (rel 0), writeToRam (.addressOf entry),
        writeToRam (rel (-2))]) a a' ∧
      FragmentStands.BodyStands L t body h h' := by
  obtain ⟨frag, hfrag, hcode, rfl, hbodies, rfl⟩ := hs
  obtain ⟨entry, inner, closure, enter, leave, hinner, hclosure, henter, hleave, rfl⟩ := hfrag.function
  simp only [List.cons_append, CodeAt, codeAt_append, Item.size_append] at hbodies
  obtain ⟨hentry, ⟨⟨henterAt, hinnerAt⟩, hleaveAt⟩, hhoistedAt⟩ := hbodies
  refine ⟨entry, inner, hinner, hentry, ⟨closure, hclosure, hcode, rfl⟩, site, _, _, _,
    ⟨enter, henter, henterAt, rfl⟩, ⟨inner, hinner.emits, hinnerAt, rfl, ?_, ?_⟩,
    ⟨leave, hleave, ?_, rfl⟩⟩
  · simpa only [Nat.add_assoc] using hhoistedAt
  · simp only [List.cons_append, Item.size_hanging, Item.size_append, Nat.add_assoc]
  · simpa only [Nat.add_assoc] using hleaveAt

theorem assignment {head : Header} {name : String} {value : Expr Site} {clauses : List (Assignment Site Header)}
    (hs : FragmentBetween L t other bs bs' (Assignment.emit (.mk head name value clauses)) a a' h h') :
    ∃ ready a₁ a₂ a₃ a₄ h₁ bs₁,
      Stands L t head.toSite (concat [copy (.int clauses.length) (rel 0), copy (rel (-2)) (rel 1),
        copy (.addressOf ready) (rel 2), jump (.addressOf .allocateScope)]) a a₁ ∧
      L.addresses[ready.index]? = some a₁ ∧ Stands L t head.toSite (concat [moveStack 2]) a₁ a₂ ∧
      FragmentBetween L t head.toSite bs bs₁ (Assignment.emitAll head.own clauses) a₂ a₃ h h₁ ∧
      FragmentBetween L t head.toSite bs₁ bs' value.emit a₃ a₄ h₁ h' ∧
      Stands L t head.toSite (concat [moveStack (-2), copy (rel 2) (rel 0)]) a₄ a' := by
  rw [Assignment.emit] at hs
  obtain ⟨ready, hs⟩ := hs.fresh (by decide)
  obtain ⟨a₁, hopen, hs⟩ := hs.within.code_cons fun _ _ => by simp
  obtain ⟨a₂, h₁, bs₁, hclauses, hs⟩ := hs.cons (.assignments head.own clauses)
  obtain ⟨a₃, h₂, bs₂, hvalue, hs⟩ := hs.cons (.expr value)
  obtain ⟨hclose, rfl, rfl⟩ := hs.code_last fun _ _ => by simp
  obtain ⟨a₄, hcall, hback⟩ := hopen.concat_append [_, _, _, _] (.concat (by simp))
  obtain ⟨a₅, hlabel, henter⟩ := hback.concat_cons (.placeLabel _)
  obtain ⟨rfl, hready⟩ := hlabel.placeLabel
  exact ⟨ready, a₅, a₁, a₂, a₃, h₁, bs₁, hcall, hready, henter, hclauses, hvalue, hclose⟩

theorem assignments_cons {s : Nat} {x : Assignment Site Header} {rest : List (Assignment Site Header)}
    (hs : FragmentBetween L t site bs bs' (Assignment.emitAll s (x :: rest)) a a' h h') :
    ∃ a₁ a₂ h₁ bs₁,
      FragmentBetween L t site bs bs₁ x.emit a a₁ h h₁ ∧
      Stands L t ⟨s, x.mark.pos⟩ (concat [copy (rel 0) (.named x.name)]) a₁ a₂ ∧
      FragmentBetween L t site bs₁ bs' (Assignment.emitAll s rest) a₂ a' h₁ h' := by
  rw [Assignment.emitAll] at hs
  obtain ⟨a₁, h₁, bs₁, hx, hs⟩ := hs.cons (.assignment x)
  obtain ⟨a₂, h₂, bs₂, hstore, hs⟩ := hs.cons (.within _ (.fragmentCode (by simp)))
  obtain ⟨a₃, h₃, bs₃, hrest, hs⟩ := hs.cons (.assignments s rest)
  obtain ⟨rfl, rfl, rfl⟩ := hs.nil
  obtain ⟨hcode, rfl, rfl⟩ := hstore.within.code (by simp)
  exact ⟨a₁, a₂, h₂, bs₂, hx, hcode, hrest⟩

end FragmentBetween

namespace FragmentStands

theorem exists_between {e : Emit Fragment} (hs : FragmentStands L t site e a a' h h') :
    ∃ bs bs', FragmentBetween L t site bs bs' e a a' h h' := by
  obtain ⟨frag, hfrag, hplaced⟩ := hs
  obtain ⟨bs, bs', hfrag⟩ := hfrag.exists_between
  exact ⟨bs, bs', frag, hfrag, hplaced⟩

theorem nil (hs : FragmentStands L t site (pure (.ofItems [])) a a' h h') : a' = a := by
  obtain ⟨bs, bs', hs⟩ := hs.exists_between
  exact hs.nil.1

theorem code {pieces : List (Emit (List Item))}
    (hs : FragmentStands L t site (Fragment.code pieces) a a' h h') :
    Stands L t site (concat pieces) a a' := by
  obtain ⟨frag, hfrag, hcode, rfl, -⟩ := hs
  obtain ⟨items, hitems, rfl⟩ := hfrag.fragmentCode
  exact ⟨items, hitems, hcode, rfl⟩

theorem number {n : Int} (hs : FragmentStands L t other (Expr.emit (.number site n)) a a' h h') :
    Stands L t site (concat [copy (.int n) (rel 0)]) a a' := by
  rw [Expr.emit] at hs
  exact code hs

theorem var {name : String} (hs : FragmentStands L t other (Expr.emit (.var site name)) a a' h h') :
    Stands L t site (concat [copy (.named name) (rel 0)]) a a' := by
  rw [Expr.emit] at hs
  exact code hs

theorem group {e : Expr Site} (hs : FragmentStands L t other (Expr.emit (.group site e)) a a' h h') :
    FragmentStands L t site e.emit a a' h h' := by
  obtain ⟨bs, bs', hs⟩ := hs.exists_between
  exact hs.group.stands

theorem tuple {items : List (Expr Site)}
    (hs : FragmentStands L t other (Expr.emit (.tuple site items)) a a' h h') :
    ∃ a₁ a₂,
      Stands L t site (concat ([copy (rel (-2)) (rel 0), moveStack 2,
        copy (.wordAt .ramPointer) (rel (-1)), writeToRam (.int items.length)] ++
          if items.isEmpty then [] else [addTo (.int items.length) (.wordAt .ramPointer)])) a a₁ ∧
      FragmentStands L t site (Expr.emitItems 0 items) a₁ a₂ h h' ∧
      Stands L t site (concat [moveStack (-2), copy (rel 1) (rel 0)]) a₂ a' := by
  obtain ⟨bs, bs', hs⟩ := hs.exists_between
  obtain ⟨a₁, a₂, hopen, hitems, hclose⟩ := hs.tuple
  exact ⟨a₁, a₂, hopen, hitems.stands, hclose⟩

theorem items_cons {index : Nat} {e : Expr Site} {rest : List (Expr Site)}
    (hs : FragmentStands L t site (Expr.emitItems index (e :: rest)) a a' h h') :
    ∃ a₁ a₂ h₁,
      FragmentStands L t site e.emit a a₁ h h₁ ∧
      Stands L t site (concat [copy (rel 0)
        (.offset (.spill (rel (-1))) (.int (Heap.tupleHeader + index)))]) a₁ a₂ ∧
      FragmentStands L t site (Expr.emitItems (index + 1) rest) a₂ a' h₁ h' := by
  obtain ⟨bs, bs', hs⟩ := hs.exists_between
  obtain ⟨a₁, a₂, h₁, bs₁, he, hstore, hrest⟩ := hs.items_cons
  exact ⟨a₁, a₂, h₁, he.stands, hstore, hrest.stands⟩

theorem items_nil {index : Nat} (hs : FragmentStands L t site (Expr.emitItems index []) a a' h h') :
    a' = a := by
  rw [Expr.emitItems] at hs
  exact hs.nil

theorem call {f x : Expr Site}
    (hs : FragmentStands L t other (Expr.emit (.call site f x)) a a' h h') :
    ∃ resume a₁ a₂ a₃ a₄ a₅ a₆ h₁,
      Stands L t site (concat [copy (rel (-2)) (rel 1), moveStack 3]) a a₁ ∧
      FragmentStands L t site f.emit a₁ a₂ h h₁ ∧
      Stands L t site (concat [copy (rel 0) (rel (-3))]) a₂ a₃ ∧
      FragmentStands L t site x.emit a₃ a₄ h₁ h' ∧
      Stands L t site (concat [copy (rel 0) (rel (-1)), copy (.wordAt .ramPointer) (rel 0),
        writeToRam (Operand.offset (.int Heap.closureScope) (rel (-3))).toPointer,
        writeToRam (rel (-1)), copy (.addressOf resume) (rel 1)]) a₄ a₅ ∧
      Stands L t site (jump (Operand.offset (.int Heap.closureCode) (rel (-3))).toPointer) a₅ a₆ ∧
      L.addresses[resume.index]? = some a₆ ∧
      Stands L t site (concat [moveStack (-3), copy (rel 3) (rel 0)]) a₆ a' := by
  obtain ⟨bs, bs', hs⟩ := hs.exists_between
  obtain ⟨resume, a₁, a₂, a₃, a₄, a₅, a₆, h₁, bs₁, hopen, hf, hmid, hx, hcode⟩ := hs.call
  exact ⟨resume, a₁, a₂, a₃, a₄, a₅, a₆, h₁, hopen, hf.stands, hmid, hx.stands, hcode⟩

theorem function {param : String} {body : Expr Site}
    (hs : FragmentStands L t other (Expr.emit (.function site param body)) a a' h h') :
    ∃ entry : Label, L.addresses[entry.index]? = some h ∧
      Stands L t site (concat [copy (.wordAt .ramPointer) (rel 0), writeToRam (.addressOf entry),
        writeToRam (rel (-2))]) a a' ∧
      BodyStands L t body h h' := by
  obtain ⟨bs, bs', hs⟩ := hs.exists_between
  obtain ⟨entry, inner, -, hcode⟩ := hs.function
  exact ⟨entry, hcode⟩

theorem assignment {head : Header} {name : String} {value : Expr Site} {clauses : List (Assignment Site Header)}
    (hs : FragmentStands L t other (Assignment.emit (.mk head name value clauses)) a a' h h') :
    ∃ ready a₁ a₂ a₃ a₄ h₁,
      Stands L t head.toSite (concat [copy (.int clauses.length) (rel 0), copy (rel (-2)) (rel 1),
        copy (.addressOf ready) (rel 2), jump (.addressOf .allocateScope)]) a a₁ ∧
      L.addresses[ready.index]? = some a₁ ∧ Stands L t head.toSite (concat [moveStack 2]) a₁ a₂ ∧
      FragmentStands L t head.toSite (Assignment.emitAll head.own clauses) a₂ a₃ h h₁ ∧
      FragmentStands L t head.toSite value.emit a₃ a₄ h₁ h' ∧
      Stands L t head.toSite (concat [moveStack (-2), copy (rel 2) (rel 0)]) a₄ a' := by
  obtain ⟨bs, bs', hs⟩ := hs.exists_between
  obtain ⟨ready, a₁, a₂, a₃, a₄, h₁, bs₁, hcall, hready, henter, hclauses, hvalue, hleave⟩ := hs.assignment
  exact ⟨ready, a₁, a₂, a₃, a₄, h₁, hcall, hready, henter, hclauses.stands, hvalue.stands, hleave⟩

theorem assignments_nil {s : Nat} (hs : FragmentStands L t site (Assignment.emitAll s []) a a' h h') : a' = a := by
  rw [Assignment.emitAll] at hs
  exact hs.nil

theorem assignments_cons {s : Nat} {x : Assignment Site Header} {rest : List (Assignment Site Header)}
    (hs : FragmentStands L t site (Assignment.emitAll s (x :: rest)) a a' h h') :
    ∃ a₁ a₂ h₁,
      FragmentStands L t site x.emit a a₁ h h₁ ∧
      Stands L t ⟨s, x.mark.pos⟩ (concat [copy (rel 0) (.named x.name)]) a₁ a₂ ∧
      FragmentStands L t site (Assignment.emitAll s rest) a₂ a' h₁ h' := by
  obtain ⟨bs, bs', hs⟩ := hs.exists_between
  obtain ⟨a₁, a₂, h₁, bs₁, hx, hstore, hrest⟩ := hs.assignments_cons
  exact ⟨a₁, a₂, h₁, hx.stands, hstore, hrest.stands⟩

end FragmentStands

end Lamcode
