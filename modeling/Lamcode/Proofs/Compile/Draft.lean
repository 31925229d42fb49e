import Lamcode.Failure
import Lamcode.Proofs.Code.Fragment
import Lamcode.Proofs.Scope.Scoped

/-!
# Lamcode.Proofs.Compile.Draft — the parts of a program before it is linked

The names of the built-ins are bound first, so all code of the trees is written with one table of scopes. The
built-ins come last; each of their levels opens a scope of its own, so what they are written with grows from one
to the next (`Grows`). A draft that was written is taken apart here into the code of its parts, each with its table.
-/

namespace Lamcode

open Emit Operand

/-! ## Built-ins open scopes -/

/-- Neither a built-in nor one of its parameters has the name that labels of function bodies have. -/
theorem Builtin.name_ne_function (b : Builtin) :
    b.name ≠ "function" ∧ ∀ param ∈ b.params, param ≠ "function" := by
  cases b <;> decide

namespace Emit

variable {β γ : Type}

/-- A relation between states that holds across opening a scope and binding a name in it, too. -/
class Opening (R : EmitState → EmitState → Prop) : Prop extends Harmless R where
  level (s : EmitState) (outer : Nat) (param : String) :
    R s { s with scopes := (s.scopes.child outer).2.bind s.scopes.size param }

namespace Moves

section Harmless

variable {R : EmitState → EmitState → Prop} [Harmless R]

theorem compare (test : Builtin.Test) (wanted : Bool) : Moves R (Builtin.compare test wanted) := by
  refine bind (fresh (by decide)) fun _ => bind (fresh (by decide)) fun _ => bind (fresh (by decide)) fun _ =>
    concat ?_
  cases test <;> cases wanted <;>
    simp [Emit.equals, Emit.lessThan, Emit.jumpIfTrue, Emit.jumpIfFalse]

theorem longDivision (result : Int) : Moves R (Builtin.longDivision result) :=
  bind (fresh (by decide)) fun _ => bind (fresh (by decide)) fun _ => bind (fresh (by decide)) fun _ =>
    concat (by simp [Emit.mult, Emit.add, Emit.lessThan, Emit.jumpIfTrue])

theorem builtinBody (b : Builtin) : Moves R b.body := by
  cases b <;> rw [Builtin.body]
  case unit => exact pure _
  case print => exact concat (by simp [Emit.write])
  case sub => exact concat (by simp [Emit.mult, Emit.add])
  case succ | add | mult | input => exact instruction _ _
  case truth | falsity | sequence | get | fst | snd => exact copy _ _
  case eq | neq | lt => exact compare _ _
  case mod | div => exact longDivision _

end Harmless

section Opening

variable {R : EmitState → EmitState → Prop} [Opening R]

/-- A scope is opened and a name bound in it. -/
theorem level {outer : Nat} {param : String} {f : Nat → Emit β} (hf : ∀ scope, Moves R (f scope)) :
    Moves R (openScope outer >>= fun scope => bindName scope param >>= fun _ => f scope) := by
  intro site s
  rw [runAt_bind_ok (runAt_openScope outer site s), runAt_bind_ok (runAt_bindName _ param site _)]
  exact Harmless.trans (Opening.level s outer param) (hf (s.scopes.child outer).1 site { s with scopes := _ })

theorem levels {inner : Emit (List Item)} (hinner : Moves R inner) (outer : Nat) (entry : Label)
    {param : String} {rest : List String} (hparams : ∀ x ∈ param :: rest, x ≠ "function") :
    Moves R (Builtin.levels inner outer entry param rest) := by
  induction rest generalizing outer entry param with
  | nil => exact level fun scope => concat (by simpa using within _ hinner)
  | cons next rest ih =>
    have hlevels := fun scope below => ih scope below fun x hx => hparams x (List.mem_cons_of_mem _ hx)
    exact level fun scope => bind (fresh (hparams param (by simp))) fun below => concat (by simpa using hlevels _ _)

theorem builtinCode (b : Builtin) (location : Label) : Moves R (b.code location) := by
  unfold Builtin.code
  split
  · exact pure _
  · next param rest hparams =>
    refine bind (fresh b.name_ne_function.1) fun _ => bind (levels (builtinBody b) _ _ ?_) fun _ => pure _
    exact hparams ▸ b.name_ne_function.2

theorem builtins : ∀ declared : List (Builtin × Label), Moves R (Compile.builtinCode declared)
  | [] => pure _
  | (b, location) :: rest => bind (builtinCode b location) fun _ => bind (builtins rest) fun _ => pure _

end Opening

end Moves

/-- The state after has the scopes of the state before as they were, and maybe more behind them. -/
abbrev ScopesGrow (s s' : EmitState) : Prop :=
  s.scopes.Extends s'.scopes

instance : Opening ScopesGrow where
  refl _ := .refl _
  trans h k := h.trans k
  choose _ _ := .refl _
  label _ _ _ := .refl _
  level s outer param := by
    refine ⟨by simp, fun {i} hi => ?_⟩
    rw [ScopeTable.get_bind_of_ne _ _ (Nat.ne_of_lt hi), ScopeTable.get_child_of_lt _ hi]

/-- The computation may open scopes, but leaves those there are as they are. -/
abbrev Grows (e : Emit β) : Prop :=
  Moves ScopesGrow e

instance : Opening SameBodies where
  level _ _ _ := rfl

namespace Emits

variable {t : ScopeTable} {site : Site}

theorem bind_of_grows {e : Emit β} {f : β → Emit γ} {y : γ} (he : Grows e) (h : Emits t site (e >>= f) y) :
    ∃ x t', Emits t site e x ∧ t.Extends t' ∧ Emits t' site (f x) y := by
  obtain ⟨s, s'', rfl, hrun⟩ := h
  obtain ⟨x, s', hx, hy⟩ := exists_of_runAt_bind hrun
  have hs := he site s
  rw [hx] at hs
  exact ⟨x, s'.scopes, of_runAt hx, hs, of_runAt hy⟩

/-- The last piece of code may be of any kind. -/
theorem concat_last {e : Emit (List Item)} {items : List Item} (h : Emits t site (Emit.concat [e]) items) :
    Emits t site e items := by
  obtain ⟨code, hcode, rfl⟩ := map (f := fun code => code ++ []) h
  rwa [List.append_nil]

end Emits

end Emit

/-! ## The table that trees are compiled with -/

namespace ScopeTable

/-- The table with the names of built-ins bound. -/
def withBuiltins (t : ScopeTable) (bs : List Builtin) : ScopeTable :=
  bs.foldl (fun t b => t.bind builtins b.name) t

variable {t : ScopeTable} (bs : List Builtin)

@[simp] theorem size_withBuiltins : (t.withBuiltins bs).size = t.size := by
  induction bs generalizing t with
  | nil => rfl
  | cons b bs ih => exact ih.trans (t.size_bind _ _)

theorem get_withBuiltins_of_ne {s : Nat} (h : s ≠ builtins) : (t.withBuiltins bs).get s = t.get s := by
  induction bs generalizing t with
  | nil => rfl
  | cons b bs ih => exact ih.trans (t.get_bind_of_ne _ h)

theorem get_withBuiltins (h : builtins < t.size) :
    (t.withBuiltins bs).get builtins =
      { t.get builtins with names := (t.get builtins).names ++ bs.map Builtin.name } := by
  induction bs generalizing t with
  | nil => simp [withBuiltins]
  | cons b bs ih =>
    refine (ih (t := t.bind builtins b.name) (by simpa using h)).trans ?_
    rw [t.get_bind_self _ h]
    simp

end ScopeTable

/-! ## Drafts -/

/-- Declaring built-ins binds their names and hands out no label of a function body. -/
theorem Emit.EmitsBetween.declare {β : Type} {t : ScopeTable} {site : Site} {ls ls' : List Label} {bs : List Builtin}
    {f : List (Builtin × Label) → Emit β} {y : β} (h : EmitsBetween t site ls ls' (Compile.declare bs >>= f) y) :
    ∃ declared, declared.map Prod.fst = bs ∧ EmitsBetween (t.withBuiltins bs) site ls ls' (f declared) y := by
  induction bs generalizing t f with
  | nil =>
    rw [Compile.declare, pure_bind] at h
    exact ⟨[], rfl, h⟩
  | cons b bs ih =>
    simp only [Compile.declare, bind_assoc, pure_bind] at h
    obtain ⟨location, -, h⟩ := bind_quiet (.fresh _) (.fresh b.name_ne_function.1) h.bindName
    obtain ⟨declared, rfl, h⟩ := ih h
    exact ⟨(b, location) :: declared, rfl, h⟩

namespace Emit.Emits

variable {t : ScopeTable} {site : Site}

/-- The code of the built-ins, each with the table that it was written with. -/
theorem builtinCode {declared : List (Builtin × Label)} {out : List (Builtin × List Item)}
    (h : Emits t site (Compile.builtinCode declared) out) :
    List.Forall₂ (fun x y => y.1 = x.1 ∧ ∃ t', t.Extends t' ∧ Emits t' site (x.1.code x.2) y.2)
      declared out := by
  induction declared generalizing t out with
  | nil =>
    rw [h.pure]
    exact .nil
  | cons x declared ih =>
    obtain ⟨b, location⟩ := x
    obtain ⟨code, t', hcode, ht', h⟩ := bind_of_grows (.builtinCode b location) h
    obtain ⟨more, hmore, rfl⟩ := map h
    refine .cons ⟨rfl, t, .refl t, hcode⟩ ((ih hmore).imp ?_)
    rintro x y ⟨hname, t'', ht'', hy⟩
    exact ⟨hname, t'', ht'.trans ht'', hy⟩

end Emit.Emits

namespace Compile

/-- The scopes that the trees of a program are compiled with. -/
def table (p : Program) : ScopeTable :=
  p.scopes.withBuiltins (Builtin.chosen p.usedNames)

section

variable {p : Program} (h : p.WellScoped)
include h

theorem globals_lt_table : ScopeTable.globals < (table p).size := by
  rw [table, ScopeTable.size_withBuiltins]
  exact h.globals_lt

theorem builtins_lt_table : ScopeTable.builtins < (table p).size :=
  Nat.lt_trans (by decide) (globals_lt_table h)

theorem get_table_builtins : (table p).get ScopeTable.builtins =
    ⟨none, some .builtinScope, (Builtin.chosen p.usedNames).map Builtin.name⟩ := by
  rw [table, ScopeTable.get_withBuiltins _ (Nat.lt_trans (by decide) h.globals_lt), h.get_builtins]
  rfl

theorem get_table_globals : (table p).get ScopeTable.globals =
    ⟨some ScopeTable.builtins, some .globalScope, p.assignments.map Assignment.name⟩ :=
  (ScopeTable.get_withBuiltins_of_ne _ (by decide)).trans h.get_globals

theorem allScopedIn_table : Assignment.AllScopedIn (table p) ScopeTable.globals p.assignments :=
  h.scopedIn _ fun _ hs => ScopeTable.get_withBuiltins_of_ne _ hs

end

/-- The parts of a program that was written. The labels of function bodies are those that its assignments were
given. -/
theorem exists_between_of_runDraft {p : Program} {o : Options} {d : Draft} {s : EmitState}
    (h : runDraft p o = (.ok d, s)) :
    ∃ (declared : List (Builtin × Label)) (start : List Item) (main : Fragment) (allocate : List Item),
      declared.map Prod.fst = Builtin.chosen p.usedNames ∧
      (let site : Site := ⟨ScopeTable.globals, .generated⟩
       Emits (table p) site (adjustBase (.offset (.addressOf .stackBegin) (.int 2))) start ∧
         EmitsBetween (table p) site [] s.labels.bodies (Assignment.emitAll ScopeTable.globals p.assignments) main ∧
         Emits (table p) site allocator allocate ∧
         List.Forall₂ (fun x y => y.1 = x.1 ∧ ∃ t, (table p).Extends t ∧ Emits t site (x.1.code x.2) y.2)
           declared d.builtins) ∧
      d.items = start ++ main.inPlace ++ halt ++ allocate ++ d.builtins.flatMap (·.2) ++
        .labeled (.num 0) .builtinScope :: declared.map (fun (_, l) => .word (.addr l)) ++
        .labeled (.addr .builtinScope) .globalScope ::
          (p.scopes.get ScopeTable.globals).names.map (fun _ => .word (.num 0)) ++
        main.hoisted ++
        [.labeled (.num o.ramBegin) .ramPointer, .labeled (.addr .globalScope) .stackBegin] := by
  have hd : EmitsBetween p.scopes ⟨ScopeTable.globals, .generated⟩ [] s.labels.bodies (draft p o.ramBegin) d :=
    ⟨_, s, rfl, LabelTable.bodies_reserved, rfl, h⟩
  obtain ⟨declared, hdeclared, hd⟩ := hd.declare
  obtain ⟨first, hfirst, hd⟩ := hd.bind_quiet (.instruction _ _) (.instruction _ _)
  obtain ⟨main, bs, hmain, hd⟩ := hd.bind (.assignments _ _)
  obtain ⟨allocate, hallocate, hd⟩ := hd.bind_quiet (.concat (by simp)) (.concat (by simp))
  obtain ⟨builtins, hbuiltins, rfl⟩ := hd.map
  rw [← hbuiltins.eq_of_quiet (.builtins declared)] at hmain
  exact ⟨declared, first, main, allocate, hdeclared, ⟨hfirst, hmain, hallocate, hbuiltins.emits.builtinCode⟩, rfl⟩

theorem exists_of_runDraft {p : Program} {o : Options} {d : Draft} {s : EmitState}
    (h : runDraft p o = (.ok d, s)) :
    ∃ (declared : List (Builtin × Label)) (start : List Item) (main : Fragment) (allocate : List Item),
      declared.map Prod.fst = Builtin.chosen p.usedNames ∧
      (let site : Site := ⟨ScopeTable.globals, .generated⟩
       Emits (table p) site (adjustBase (.offset (.addressOf .stackBegin) (.int 2))) start ∧
         Emits (table p) site (Assignment.emitAll ScopeTable.globals p.assignments) main ∧
         Emits (table p) site allocator allocate ∧
         List.Forall₂ (fun x y => y.1 = x.1 ∧ ∃ t, (table p).Extends t ∧ Emits t site (x.1.code x.2) y.2)
           declared d.builtins) ∧
      d.items = start ++ main.inPlace ++ halt ++ allocate ++ d.builtins.flatMap (·.2) ++
        .labeled (.num 0) .builtinScope :: declared.map (fun (_, l) => .word (.addr l)) ++
        .labeled (.addr .builtinScope) .globalScope ::
          (p.scopes.get ScopeTable.globals).names.map (fun _ => .word (.num 0)) ++
        main.hoisted ++
        [.labeled (.num o.ramBegin) .ramPointer, .labeled (.addr .globalScope) .stackBegin] := by
  obtain ⟨declared, start, main, allocate, hdeclared, ⟨hstart, hmain, hcode⟩, hitems⟩ :=
    exists_between_of_runDraft h
  exact ⟨declared, start, main, allocate, hdeclared, ⟨hstart, hmain.emits, hcode⟩, hitems⟩

theorem exists_of_program {p : Program} {o : Options} {c : Compiled} (h : program p o = .ok c) :
    ∃ d s, runDraft p o = (.ok d, s) ∧ Assembly.link s.labels d.items = .ok c.assembly ∧
      c.labels = s.labels ∧ c.builtins = Builtin.chosen p.usedNames ∧
      c.globals = (p.scopes.get ScopeTable.globals).names := by
  unfold program programWith at h
  split at h
  · cases h
  · next d s hdraft =>
    split at h
    · cases h
    · next assembly hlink =>
      cases h
      exact ⟨d, s, hdraft, hlink, rfl, rfl, rfl⟩

end Compile

/-! ## Programs that are read from text -/

namespace Program

theorem wellScoped_of_parse {source : String} {p : Program} (h : parse source = .ok p) : p.WellScoped := by
  obtain ⟨_, as, -, -, rfl⟩ := exists_of_parse h
  exact wellScoped_ofAssignments as

end Program

end Lamcode
