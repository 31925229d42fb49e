import Lamcode.Proofs.Compile.Pair
import Lamcode.Proofs.Link.Complete

/-!
# Lamcode.Proofs.Compile.Bound — programs that compile are those without free variables

A variable is bound by a function literal around it, by a clause of its own assignment or of one that owns it, by a
top-level assignment, or by the catalog. `free` lists the variables that are not, in the order in which their code is
written; it looks at trees only. Whether a name resolves in the scopes of a program comes down to it (`filter_uses`),
and so a program compiles if and only if nothing in it is free, and no label is left without a place then.
-/

namespace Lamcode

/-! ## Free variables -/

namespace Expr

variable {α : Type}

mutual

/-- The variables that are not among the names in `bound`, in reading order. -/
def free (bound : List String) : Expr α → List (α × String)
  | .number _ _ => []
  | .var mark name => if name ∈ bound then [] else [(mark, name)]
  | .tuple _ items => freeOf bound items
  | .call _ f x => f.free bound ++ x.free bound
  | .function _ param body => body.free (param :: bound)
  | .group _ inner => inner.free bound

/-- The free variables of expressions. -/
def freeOf (bound : List String) : List (Expr α) → List (α × String)
  | [] => []
  | e :: rest => e.free bound ++ freeOf bound rest

end

end Expr

namespace Assignment

variable {α β : Type}

mutual

/-- The free variables of the clauses, then those of the value; the names of the clauses are bound in both. -/
def free (bound : List String) : Assignment α β → List (α × String)
  | .mk _ _ value clauses =>
    freeOf (clauses.map name ++ bound) clauses ++ value.free (clauses.map name ++ bound)

/-- The free variables of assignments. -/
def freeOf (bound : List String) : List (Assignment α β) → List (α × String)
  | [] => []
  | a :: rest => a.free bound ++ freeOf bound rest

end

end Assignment

/-- The variables of a program that neither the program nor the catalog binds. -/
def Program.free (p : Program) : List (Site × String) :=
  Assignment.freeOf (p.assignments.map Assignment.name ++ Builtin.all.map Builtin.name) p.assignments

/-! ### Only the names that occur matter -/

mutual

theorem Expr.free_congr {α : Type} : ∀ (e : Expr α) {bound bound' : List String},
    (∀ name ∈ e.usedNames, name ∈ bound ↔ name ∈ bound') → e.free bound = e.free bound'
  | .number _ _, _, _, _ => rfl
  | .var _ name, _, _, h => by simp [Expr.free, h name (by simp [Expr.usedNames])]
  | .tuple _ items, _, _, h => Expr.freeOf_congr items h
  | .call _ f x, _, _, h => by
    rw [Expr.free, Expr.free, f.free_congr fun name hname => h name (List.mem_append_left _ hname),
      x.free_congr fun name hname => h name (List.mem_append_right _ hname)]
  | .function _ param body, _, _, h => body.free_congr fun name hname => by
    rw [List.mem_cons, List.mem_cons, h name hname]
  | .group _ inner, _, _, h => inner.free_congr h

theorem Expr.freeOf_congr {α : Type} : ∀ (items : List (Expr α)) {bound bound' : List String},
    (∀ name ∈ Expr.usedNamesOf items, name ∈ bound ↔ name ∈ bound') →
      Expr.freeOf bound items = Expr.freeOf bound' items
  | [], _, _, _ => rfl
  | e :: rest, _, _, h => by
    rw [Expr.freeOf, Expr.freeOf, e.free_congr fun name hname => h name (List.mem_append_left _ hname),
      Expr.freeOf_congr rest fun name hname => h name (List.mem_append_right _ hname)]

end

mutual

theorem Assignment.free_congr {α β : Type} : ∀ (a : Assignment α β) {bound bound' : List String},
    (∀ name ∈ a.usedNames, name ∈ bound ↔ name ∈ bound') → a.free bound = a.free bound'
  | .mk _ _ value clauses, bound, bound', h => by
    have hinner : ∀ name ∈ value.usedNames ++ usedNamesOf clauses,
        name ∈ clauses.map Assignment.name ++ bound ↔ name ∈ clauses.map Assignment.name ++ bound' := by
      intro name hname
      rw [List.mem_append, List.mem_append, h name hname]
    rw [free, free, freeOf_congr clauses fun name hname => hinner name (List.mem_append_right _ hname),
      value.free_congr fun name hname => hinner name (List.mem_append_left _ hname)]

theorem Assignment.freeOf_congr {α β : Type} : ∀ (as : List (Assignment α β)) {bound bound' : List String},
    (∀ name ∈ usedNamesOf as, name ∈ bound ↔ name ∈ bound') → freeOf bound as = freeOf bound' as
  | [], _, _, _ => rfl
  | a :: rest, _, _, h => by
    rw [freeOf, freeOf, a.free_congr fun name hname => h name (List.mem_append_left _ hname),
      freeOf_congr rest fun name hname => h name (List.mem_append_right _ hname)]

end

/-! ## Free variables are those that do not resolve -/

namespace ScopeTable

/-- The name does not resolve at the site. -/
def fails (t : ScopeTable) (u : Site × String) : Bool :=
  (t.resolve u.1.scope u.2).isNone

theorem Sees.fails_eq {t : ScopeTable} {s : Nat} {visible : List String} (h : t.Sees s visible) {site : Site}
    (hsite : site.scope = s) (name : String) : t.fails (site, name) = !decide (name ∈ visible) := by
  subst hsite
  by_cases hname : name ∈ visible
  · obtain ⟨r, hr⟩ := (h.exists_resolve_iff name).2 hname
    simp [fails, hr, hname]
  · have hnone : t.resolve site.scope name = none := by
      rw [Option.eq_none_iff_forall_not_mem]
      exact fun r hr => hname ((h.exists_resolve_iff name).1 ⟨r, hr⟩)
    simp [fails, hnone, hname]

/-- The error that ends a compilation is that for the first use that fails. -/
theorem missing_eq (t : ScopeTable) (uses : List (Site × String)) :
    t.missing uses = (uses.filter t.fails).head?.map fun u => .unresolved u.2 u.1.pos := by
  rw [List.head?_filter]
  rfl

end ScopeTable

mutual

theorem Expr.filter_uses {t : ScopeTable} : ∀ (e : Expr Site) {s : Nat} {visible : List String},
    e.ScopedIn t s → t.Sees s visible → e.uses.filter t.fails = e.free visible
  | .number _ _, _, _, _, _ => rfl
  | .var site name, s, visible, hscoped, hsees => by
    have hfails : t.fails (site, name) = _ := hsees.fails_eq hscoped name
    by_cases hname : name ∈ visible <;> simp [Expr.uses, Expr.free, hfails, hname]
  | .tuple _ items, _, _, hscoped, hsees => Expr.filter_usesOf items hscoped.2 hsees
  | .call _ f x, _, _, hscoped, hsees => by
    rw [Expr.uses, List.filter_append, f.filter_uses hscoped.2.1 hsees, x.filter_uses hscoped.2.2 hsees]
    rfl
  | .function _ param body, _, _, hscoped, hsees => by
    obtain ⟨-, inner, hget, hlt, hbody⟩ := hscoped
    have hsize : inner < t.size := t.lt_size_of_get_ne fun h => by simp [hget] at h
    exact body.filter_uses hbody (.inner hget hlt hsize hsees)
  | .group _ inner, _, _, hscoped, hsees => inner.filter_uses hscoped.2 hsees

theorem Expr.filter_usesOf {t : ScopeTable} : ∀ (items : List (Expr Site)) {s : Nat} {visible : List String},
    Expr.AllScopedIn t s items → t.Sees s visible → (Expr.usesOf items).filter t.fails = Expr.freeOf visible items
  | [], _, _, _, _ => rfl
  | e :: rest, _, _, hscoped, hsees => by
    rw [Expr.usesOf, List.filter_append, e.filter_uses hscoped.1 hsees, Expr.filter_usesOf rest hscoped.2 hsees]
    rfl

end

mutual

theorem Assignment.filter_uses {t : ScopeTable} : ∀ (a : Assignment Site Header) {s : Nat} {visible : List String},
    a.ScopedIn t s → t.Sees s visible → a.uses.filter t.fails = a.free visible
  | .mk head _ value clauses, _, _, hscoped, hsees => by
    obtain ⟨-, hget, hlt, hvalue, hclauses⟩ := hscoped
    have hsize : head.own < t.size := t.lt_size_of_get_ne fun h => by simp [hget] at h
    have hown := ScopeTable.Sees.inner hget hlt hsize hsees
    rw [uses, List.filter_append, value.filter_uses hvalue hown,
      filter_usesOf clauses hclauses hown fun a ha => List.mem_append_left _ (List.mem_map_of_mem ha)]
    rfl

/-- What is assigned is visible where it is assigned, so a store never fails. -/
theorem Assignment.filter_usesOf {t : ScopeTable} : ∀ (as : List (Assignment Site Header)) {s : Nat}
    {visible : List String}, AllScopedIn t s as → t.Sees s visible → (∀ a ∈ as, a.name ∈ visible) →
      (usesOf s as).filter t.fails = freeOf visible as
  | [], _, _, _, _, _ => rfl
  | a :: rest, s, visible, hscoped, hsees, hnames => by
    have hstore : t.fails (⟨s, a.mark.pos⟩, a.name) = false := by
      rw [hsees.fails_eq rfl, decide_eq_true (hnames a (by simp))]
      rfl
    rw [usesOf, List.filter_append, a.filter_uses hscoped.1 hsees, List.filter_cons_of_neg (by simp [hstore]),
      filter_usesOf rest hscoped.2 hsees fun a' ha' => hnames a' (by simp [ha'])]
    rfl

end

/-! ## Programs -/

namespace Compile

variable {p : Program}

/-- What is seen from the scope of the globals: the globals and the built-ins that were chosen. -/
theorem sees_globals (h : p.WellScoped) :
    (table p).Sees ScopeTable.globals
      (p.assignments.map Assignment.name ++ (Builtin.chosen p.usedNames).map Builtin.name) :=
  .inner (get_table_globals h) (by decide) (globals_lt_table h) (sees_builtins h)

/-- The catalog is chosen as far as the program names it. -/
theorem free_eq (p : Program) :
    Assignment.freeOf (p.assignments.map Assignment.name ++ (Builtin.chosen p.usedNames).map Builtin.name)
      p.assignments = p.free := by
  refine Assignment.freeOf_congr _ fun name hname => ?_
  rw [List.mem_append, List.mem_append]
  refine or_congr_right ⟨fun h => ?_, fun h => ?_⟩
  · obtain ⟨b, hb, rfl⟩ := List.mem_map.1 h
    exact List.mem_map_of_mem (List.mem_of_mem_filter hb)
  · obtain ⟨b, -, rfl⟩ := List.mem_map.1 h
    exact List.mem_map_of_mem (Builtin.mem_chosen.2 (.inl hname))

/-- A draft is written unless a variable is free. -/
theorem missing_uses (h : p.WellScoped) :
    (table p).missing (Assignment.usesOf ScopeTable.globals p.assignments) =
      p.free.head?.map fun u => .unresolved u.2 u.1.pos := by
  rw [ScopeTable.missing_eq, Assignment.filter_usesOf p.assignments (allScopedIn_table h) (sees_globals h) fun a ha =>
    List.mem_append_left _ (List.mem_map_of_mem ha), free_eq]

/-- Items that carry every label that was handed out, each one once, can be linked. -/
theorem linkable_of_instance {T : Template} {items xs : List Item} {c : Cell} {n : Nat}
    (haccount : Accounts (Label.range 0 n) n T) (hinst : Instance T items) (hlast : items = xs ++ [.cell c]) :
    Linkable items ∧ (Item.labels items).Perm (Label.range 0 n) := by
  have hlabels := hinst.labels_perm.trans haccount.labels_perm
  refine ⟨⟨⟨xs, c, hlast⟩, hlabels.nodup_iff.2 (Label.nodup_range 0 n), fun l hl => ?_⟩, hlabels⟩
  exact hlabels.symm.subset (Label.mem_range.2 ⟨Nat.zero_le _, haccount.refs l (hinst.refs_perm.subset hl)⟩)

theorem programWith_of_link {ramBegin : Nat} {choice : Choice} {d : Draft} {s : EmitState} {asm : Assembly}
    (hd : runDraftWith p ramBegin choice = (.ok d, s)) (hasm : Assembly.link s.labels d.items = .ok asm) :
    programWith p ramBegin choice =
      .ok ⟨asm, s.labels, Builtin.chosen p.usedNames, (p.scopes.get ScopeTable.globals).names⟩ := by
  rw [programWith, hd]
  simp only [hasm]

section

variable (h : p.WellScoped) (hgrounded : p.scopes.Grounded)
include h hgrounded

theorem exists_runDraft_error {u : Site × String} (hfree : p.free.head? = some u) (ramBegin : Nat) (choice : Choice) :
    ∃ s, runDraftWith p ramBegin choice = (.error (.unresolved u.2 u.1.pos), s) := by
  have hcouples := couples_draft h hgrounded ramBegin
  rw [missing_uses h, hfree] at hcouples
  exact (hcouples choice choice).1

/-- Without free variables two drafts are written that differ in their choices only. -/
theorem exists_runDraft_ok (hfree : p.free = []) (ramBegin : Nat) (choice choice' : Choice) :
    ∃ d d' s s', runDraftWith p ramBegin choice = (.ok d, s) ∧ runDraftWith p ramBegin choice' = (.ok d', s') ∧
      s'.labels = s.labels ∧ TwinDrafts s.labels d d' := by
  have hcouples := couples_draft h hgrounded ramBegin
  rw [missing_uses h, hfree] at hcouples
  obtain ⟨t, L, c₁, c₂, d, d', hd, hd', htwins⟩ := hcouples choice choice'
  exact ⟨d, d', _, _, hd, hd', rfl, htwins⟩

theorem programWith_eq_error {u : Site × String} (hfree : p.free.head? = some u) (ramBegin : Nat) (choice : Choice) :
    programWith p ramBegin choice = .error (.emit (.unresolved u.2 u.1.pos)) := by
  obtain ⟨s, hs⟩ := exists_runDraft_error h hgrounded hfree ramBegin choice
  rw [programWith, hs]

theorem exists_program (hfree : p.free = []) (o : Options) : ∃ c, program p o = .ok c := by
  obtain ⟨d, d', s, -, hd, -, -, -, ⟨T, haccount, hinst, -⟩, xs, -, c, hlast, -⟩ :=
    exists_runDraft_ok h hgrounded hfree o.ramBegin (.ofSeed? o.seed) (.ofSeed? o.seed)
  obtain ⟨asm, hasm⟩ := Assembly.exists_link (linkable_of_instance haccount hinst hlast).1 s.labels
  exact ⟨_, programWith_of_link hd hasm⟩

end

/-- Each label stands for one place among the items, and in the image for the address of one of its words. -/
structure Places (items : List Item) (c : Compiled) : Prop where
  count_eq : ∀ l : Label, l.index < c.labels.size → (Item.labels items).count l = 1
  exists_address : ∀ l : Label, l.index < c.labels.size → ∃ a < c.words.length, c.assembly.address? l = some a

theorem exists_places (h : p.WellScoped) (hgrounded : p.scopes.Grounded) (hfree : p.free = []) {o : Options}
    {c : Compiled} (hc : program p o = .ok c) : ∃ d s, runDraft p o = (.ok d, s) ∧ Places d.items c := by
  obtain ⟨d, -, s, -, hd, -, -, -, ⟨T, haccount, hinst, -⟩, xs, -, cell, hlast, -⟩ :=
    exists_runDraft_ok h hgrounded hfree o.ramBegin (.ofSeed? o.seed) (.ofSeed? o.seed)
  obtain ⟨d', s', hd', hlink, hlabels, -⟩ := exists_of_program hc
  obtain ⟨rfl, rfl⟩ : d = d' ∧ s = s' := by simpa using hd.symm.trans hd'
  obtain ⟨hholds, -, hlt⟩ := Assembly.link_holds hlink
  have hperm := (linkable_of_instance haccount hinst hlast).2
  have hmem : ∀ l : Label, l.index < c.labels.size → l ∈ Item.labels d.items := fun l hl =>
    hperm.symm.subset (Label.mem_range.2 ⟨Nat.zero_le _, hlabels ▸ hl⟩)
  refine ⟨d, s, hd, fun l hl => ?_, fun l hl => ?_⟩
  · exact List.count_eq_one_of_mem (hperm.nodup_iff.2 (Label.nodup_range _ _)) (hmem l hl)
  · obtain ⟨a, ha⟩ := hholds.exists_address (hmem l hl)
    exact ⟨a, hlt ha, ha⟩

/-- A program compiles if and only if it has no free variables. Otherwise the error names the first one, with its
position, and there is no other error. In the image of a program that compiles, every label has its place. -/
theorem program_ok_iff {source : String} (h : Program.parse source = .ok p) (o : Options) :
    ((∃ c, program p o = .ok c) ↔ p.free = []) ∧
      (∀ e, program p o = .error e → ∃ u, p.free.head? = some u ∧ e = .emit (.unresolved u.2 u.1.pos)) ∧
      ∀ c, program p o = .ok c → ∃ d s, runDraft p o = (.ok d, s) ∧ Places d.items c := by
  have hscoped := Program.wellScoped_of_parse h
  have hgrounded := Program.grounded_of_parse h
  rcases hfree : p.free with _ | ⟨u, rest⟩
  · obtain ⟨c, hc⟩ := exists_program hscoped hgrounded hfree o
    refine ⟨⟨fun _ => rfl, fun _ => ⟨c, hc⟩⟩, fun e he => ?_, fun c hc => exists_places hscoped hgrounded hfree hc⟩
    rw [hc] at he
    cases he
  · have herror : program p o = _ := programWith_eq_error hscoped hgrounded (u := u) (by rw [hfree]; rfl) _ _
    refine ⟨⟨fun ⟨c, hc⟩ => ?_, fun h => (nomatch h)⟩, fun e he => ⟨u, rfl, ?_⟩, fun c hc => ?_⟩
    · rw [herror] at hc
      cases hc
    · rw [herror] at he
      exact (Except.error.inj he).symm
    · rw [herror] at hc
      cases hc

/-- A clause does not see the parameter of the function that its owner is. -/
def unowned : String :=
  "f = x => g x where\n  g = y => add x z"

theorem program_unowned :
    ∃ p, Program.parse unowned = .ok p ∧ p.free = [(⟨5, 2, 16, 2, false⟩, "x"), (⟨5, 2, 18, 2, false⟩, "z")] ∧
      ∀ o, program p o = .error (.emit (.unresolved "x" ⟨2, 16, 2, false⟩)) := by
  have h : (Program.parse unowned).toOption.any (fun p =>
      decide (p.free = [(⟨5, 2, 16, 2, false⟩, "x"), (⟨5, 2, 18, 2, false⟩, "z")])) = true := by decide +kernel
  obtain ⟨p, hparse, h⟩ := exists_ok_of_any h
  have hfree := of_decide_eq_true h
  refine ⟨p, hparse, hfree, fun o => ?_⟩
  obtain ⟨hiff, herror, -⟩ := program_ok_iff hparse o
  cases hresult : program p o with
  | ok c =>
    have := hiff.1 ⟨c, hresult⟩
    rw [hfree] at this
    cases this
  | error e =>
    obtain ⟨u, hu, rfl⟩ := herror e hresult
    rw [hfree] at hu
    cases hu
    rfl

end Compile

end Lamcode
