import Mathlib.Data.List.Perm.Subperm
import Lamcode.Proofs.Scope.Scoped

/-!
# Lamcode.Proofs.Scope.Chain — names are resolved along the way out

`ScopeTable.Chain t s chain` lists the scopes from `s` outward, up to the outermost one. A chain comes to no scope
twice, so it is no longer than the table, and looking a name up is looking along the chain (`Chain.resolve_eq`).
What opening a scope and binding a name do to chains and to the names on them is then all that is left to say
about resolving (`resolve_exact`), for every table that comes about by these two changes (`ScopeTable.ofChanges`).
-/

namespace Lamcode

/-- The same slot, seen from `k` scopes further in. -/
def Resolution.fromBelow (k : Nat) : Resolution → Resolution
  | .fixed location offset => .fixed location offset
  | .dynamic levelsUp offset => .dynamic (levelsUp + k) offset

theorem Resolution.fromChild_fromBelow (k : Nat) (found : Resolution) :
    (found.fromBelow k).fromChild = found.fromBelow (k + 1) := by
  cases found <;> rfl

namespace ScopeTable

/-! ## Tables that come about by changes -/

/-- One change of a table. -/
inductive Change where
  /-- Opens a scope inside another one. -/
  | child (outer : Nat)
  /-- Binds a name in a scope. -/
  | bind (s : Nat) (name : String)

/-- The table after a change. -/
def change (t : ScopeTable) : Change → ScopeTable
  | .child outer => (t.child outer).2
  | .bind s name => t.bind s name

/-- The table after changes, from the two fixed scopes on. -/
def ofChanges (changes : List Change) : ScopeTable :=
  changes.foldl change initial

/-- Every scope is opened inside one that is there at that time. -/
def InPlace (t : ScopeTable) : List Change → Prop
  | [] => True
  | .child outer :: rest => outer < t.size ∧ InPlace (t.change (.child outer)) rest
  | .bind s name :: rest => InPlace (t.change (.bind s name)) rest

variable {t t' : ScopeTable} {s : Nat} {chain : List Nat} {name : String}

/-- Binding a name changes nothing of a scope but its names. -/
theorem get_bind_eq (t : ScopeTable) (s : Nat) (name : String) (r : Nat) :
    ((t.bind s name).get r).parent = (t.get r).parent ∧ ((t.bind s name).get r).location = (t.get r).location := by
  simp only [get, bind, Array.getD_eq_getD_getElem?, Array.getElem?_modify]
  split
  · cases t.scopes[r]? <;> exact ⟨rfl, rfl⟩
  · exact ⟨rfl, rfl⟩

theorem location_child (t : ScopeTable) (outer r : Nat) :
    ((t.child outer).2.get r).location = (t.get r).location := by
  simp only [get, child, Array.getD_eq_getD_getElem?, Array.getElem?_push]
  split
  · next hr => simp [hr]
  · rfl

/-- The scopes with records at fixed addresses are the two outermost ones. -/
structure Rooted (t : ScopeTable) : Prop where
  two_le_size : 2 ≤ t.size
  parent_builtins : (t.get builtins).parent = none
  parent_globals : (t.get globals).parent = some builtins
  location_builtins : (t.get builtins).location = some .builtinScope
  location_globals : (t.get globals).location = some .globalScope
  location_inner : ∀ s, 2 ≤ s → (t.get s).location = none

theorem rooted_initial : initial.Rooted where
  two_le_size := by decide
  parent_builtins := rfl
  parent_globals := rfl
  location_builtins := rfl
  location_globals := rfl
  location_inner s hs := by
    have hout : initial.scopes.size ≤ s := hs
    simp [get, Array.getD_eq_getD_getElem?, hout]

theorem Rooted.change (h : t.Rooted) (c : Change) : (t.change c).Rooted := by
  have hsize := h.two_le_size
  cases c with
  | child outer =>
    have hbuiltins : (t.child outer).2.get builtins = t.get builtins := t.get_child_of_lt (Nat.lt_of_succ_lt hsize)
    have hglobals : (t.child outer).2.get globals = t.get globals := t.get_child_of_lt hsize
    refine ⟨by simp only [ScopeTable.change, size_child]; omega, ?_, ?_, ?_, ?_, fun s hs => ?_⟩
    · exact (congrArg Scope.parent hbuiltins).trans h.parent_builtins
    · exact (congrArg Scope.parent hglobals).trans h.parent_globals
    · exact (t.location_child outer _).trans h.location_builtins
    · exact (t.location_child outer _).trans h.location_globals
    · exact (t.location_child outer s).trans (h.location_inner s hs)
  | bind s name =>
    refine ⟨by simpa only [ScopeTable.change, size_bind] using hsize, ?_, ?_, ?_, ?_, fun r hr => ?_⟩
    all_goals simp only [ScopeTable.change, get_bind_eq]
    · exact h.parent_builtins
    · exact h.parent_globals
    · exact h.location_builtins
    · exact h.location_globals
    · exact h.location_inner r hr

theorem rooted_ofChanges (changes : List Change) : (ofChanges changes).Rooted := by
  have hrun : ∀ {t : ScopeTable}, t.Rooted → (changes.foldl ScopeTable.change t).Rooted := by
    induction changes with
    | nil => exact id
    | cons c rest ih => exact fun h => ih (h.change c)
  exact hrun rooted_initial

/-- Every scope comes after the one around it. -/
def Ordered (t : ScopeTable) : Prop :=
  ∀ ⦃s outer : Nat⦄, (t.get s).parent = some outer → outer < s

theorem ordered_initial : initial.Ordered := by
  intro s outer h
  match s with
  | 0 => cases h
  | 1 =>
    cases h
    decide
  | s + 2 => simp [get, initial] at h

theorem Ordered.child (h : t.Ordered) {outer : Nat} (houter : outer < t.size) : (t.child outer).2.Ordered := by
  intro s outer' hparent
  by_cases hs : s < t.size
  · rw [t.get_child_of_lt hs] at hparent
    exact h hparent
  · have hlt := (t.child outer).2.lt_size_of_get_ne (s := s) fun heq => by simp [heq] at hparent
    obtain rfl : s = t.size := by
      rw [size_child] at hlt
      omega
    rw [get_child_self] at hparent
    cases hparent
    exact houter

theorem Ordered.bind (h : t.Ordered) (s : Nat) (name : String) : (t.bind s name).Ordered := by
  intro r outer hparent
  rw [(t.get_bind_eq s name r).1] at hparent
  exact h hparent

theorem ordered_ofChanges {changes : List Change} (h : initial.InPlace changes) : (ofChanges changes).Ordered := by
  have hrun : ∀ {t : ScopeTable}, t.Ordered → t.InPlace changes → (changes.foldl ScopeTable.change t).Ordered := by
    clear h
    induction changes with
    | nil => exact fun ht _ => ht
    | cons c rest ih =>
      intro t ht hplace
      cases c with
      | child outer => exact ih (ht.child hplace.1) hplace.2
      | bind s name => exact ih (ht.bind s name) hplace
  exact hrun ordered_initial h

/-! ## The way out of a scope -/

/-- The scopes from a scope outward, up to the outermost one. -/
inductive Chain (t : ScopeTable) : Nat → List Nat → Prop
  | outermost {s : Nat} : s < t.size → (t.get s).parent = none → Chain t s [s]
  | inner {s outer : Nat} {rest : List Nat} : s < t.size → (t.get s).parent = some outer → Chain t outer rest →
    Chain t s (s :: rest)

/-- Where every scope comes after the one around it, there is a way out of each. -/
theorem exists_chain (h : t.Ordered) (hs : s < t.size) : ∃ chain, t.Chain s chain := by
  induction s using Nat.strongRecOn with
  | _ s ih =>
    cases hparent : (t.get s).parent with
    | none => exact ⟨[s], .outermost hs hparent⟩
    | some outer =>
      have hlt := h hparent
      obtain ⟨chain, hchain⟩ := ih outer hlt (Nat.lt_trans hlt hs)
      exact ⟨s :: chain, .inner hs hparent hchain⟩

namespace Chain

theorem lt_size (h : t.Chain s chain) : ∀ r ∈ chain, r < t.size := by
  induction h with
  | outermost hs _ => simpa using hs
  | inner hs _ _ ih => exact List.forall_mem_cons.2 ⟨hs, ih⟩

theorem unique (h : t.Chain s chain) {chain' : List Nat} (h' : t.Chain s chain') : chain' = chain := by
  induction h generalizing chain' with
  | outermost _ hparent =>
    cases h' with
    | outermost _ _ => rfl
    | inner _ hparent' _ => cases hparent.symm.trans hparent'
  | inner _ hparent _ ih =>
    cases h' with
    | outermost _ hparent' => cases hparent.symm.trans hparent'
    | inner _ hparent' hrest =>
      cases hparent.symm.trans hparent'
      rw [ih hrest]

/-- From a scope on the way on, the way out is the same. -/
theorem suffix (h : t.Chain s chain) {before after : List Nat} {r : Nat} (heq : chain = before ++ r :: after) :
    t.Chain r (r :: after) := by
  induction h generalizing before with
  | @outermost s hs hparent =>
    cases before with
    | nil =>
      cases heq
      exact .outermost hs hparent
    | cons q before => simp at heq
  | @inner s outer rest hs hparent hrest ih =>
    cases before with
    | nil =>
      cases heq
      exact .inner hs hparent hrest
    | cons q before =>
      cases heq
      exact ih rfl

/-- The way out comes to no scope twice: it would go round for ever. -/
theorem nodup (h : t.Chain s chain) : chain.Nodup := by
  induction h with
  | outermost _ _ => simp
  | @inner s outer rest hs hparent hrest ih =>
    refine List.nodup_cons.2 ⟨fun hmem => ?_, ih⟩
    obtain ⟨before, after, heq⟩ := List.append_of_mem hmem
    have hagain := (Chain.inner hs hparent hrest).unique (hrest.suffix heq)
    have hlength := congrArg List.length hagain
    rw [heq] at hlength
    simp at hlength
    omega

theorem length_le (h : t.Chain s chain) : chain.length ≤ t.size := by
  have hsub : chain ⊆ List.range t.size := fun r hr => List.mem_range.2 (h.lt_size r hr)
  have := (h.nodup.subperm hsub).length_le
  rwa [List.length_range] at this

end Chain

/-! ## Looking along a chain -/

/-- Looks a name up in the scopes of a list, one after the other, each of them one level further out. -/
def along (t : ScopeTable) (name : String) : List Nat → Option Resolution
  | [] => none
  | r :: rest =>
    match (t.get r).names.idxOf? name with
    | some offset => some ((t.get r).slot offset)
    | none => (along t name rest).map Resolution.fromChild

theorem Chain.resolveWithin_eq (h : t.Chain s chain) (name : String) {limit : Nat} (hlimit : chain.length ≤ limit) :
    t.resolveWithin name limit s = t.along name chain := by
  induction h generalizing limit with
  | @outermost s _ hparent =>
    obtain ⟨limit, rfl⟩ : ∃ k, limit = k + 1 := ⟨limit - 1, by simp at hlimit; omega⟩
    rcases hi : (t.get s).names.idxOf? name with _ | i
    · simp only [resolveWithin_outermost hi hparent, along, hi, Option.map_none]
    · simp only [resolveWithin_here hi, along, hi]
  | @inner s outer rest _ hparent _ ih =>
    obtain ⟨limit, rfl⟩ : ∃ k, limit = k + 1 := ⟨limit - 1, by simp at hlimit; omega⟩
    rcases hi : (t.get s).names.idxOf? name with _ | i
    · simp only [resolveWithin_outer hi hparent, along, hi, ih (show rest.length ≤ limit by simpa using hlimit)]
    · simp only [resolveWithin_here hi, along, hi]

/-- Resolving a name is looking along the way out. -/
theorem Chain.resolve_eq (h : t.Chain s chain) (name : String) : t.resolve s name = t.along name chain :=
  h.resolveWithin_eq name h.length_le

theorem idxOf?_of_mem {names : List String} (h : name ∈ names) : names.idxOf? name = some (names.idxOf name) := by
  rw [List.idxOf?, List.findIdx?_eq_some_iff_findIdx_eq]
  exact ⟨List.idxOf_lt_length_of_mem h, rfl⟩

theorem along_cons_of_notMem {r : Nat} (h : name ∉ (t.get r).names) (rest : List Nat) :
    t.along name (r :: rest) = (t.along name rest).map Resolution.fromChild := by
  rw [along, List.idxOf?_eq_none_iff.2 h]

theorem along_cons_of_mem {r : Nat} (h : name ∈ (t.get r).names) (rest : List Nat) :
    t.along name (r :: rest) = some ((t.get r).slot ((t.get r).names.idxOf name)) := by
  rw [along, idxOf?_of_mem h]

theorem along_eq_none_iff : t.along name chain = none ↔ ∀ r ∈ chain, name ∉ (t.get r).names := by
  induction chain with
  | nil => simp [along]
  | cons r rest ih =>
    rw [List.forall_mem_cons]
    by_cases hr : name ∈ (t.get r).names
    · rw [along_cons_of_mem hr]
      simp [hr]
    · rw [along_cons_of_notMem hr, Option.map_eq_none_iff, ih]
      simp [hr]

/-- Only the scopes up to the first one with the name matter. -/
theorem along_append_of_mem {before : List Nat} (h : ∃ q ∈ before, name ∈ (t.get q).names) (after : List Nat) :
    t.along name (before ++ after) = t.along name before := by
  induction before with
  | nil => simp at h
  | cons r before ih =>
    rw [List.cons_append]
    by_cases hr : name ∈ (t.get r).names
    · rw [along_cons_of_mem hr, along_cons_of_mem hr]
    · obtain ⟨q, hq, hname⟩ := h
      have hq : q ∈ before := by
        rcases List.mem_cons.1 hq with rfl | hq
        · exact absurd hname hr
        · exact hq
      rw [along_cons_of_notMem hr, along_cons_of_notMem hr, ih ⟨q, hq, hname⟩]

/-- The first scope with the name, seen from the start of the list. -/
theorem along_of_first {before after : List Nat} {r : Nat} (hbefore : ∀ q ∈ before, name ∉ (t.get q).names)
    (hr : name ∈ (t.get r).names) : t.along name (before ++ r :: after) =
      some (((t.get r).slot ((t.get r).names.idxOf name)).fromBelow before.length) := by
  induction before with
  | nil =>
    rw [List.nil_append, along_cons_of_mem hr]
    cases (t.get r).slot _ <;> rfl
  | cons q before ih =>
    rw [List.forall_mem_cons] at hbefore
    rw [List.cons_append, along_cons_of_notMem hbefore.1, ih hbefore.2, Option.map_some, Resolution.fromChild_fromBelow,
      List.length_cons]

theorem along_congr (h : ∀ r ∈ chain, (t'.get r).names.idxOf? name = (t.get r).names.idxOf? name ∧
    (t'.get r).location = (t.get r).location) : t'.along name chain = t.along name chain := by
  induction chain with
  | nil => rfl
  | cons r rest ih =>
    rw [List.forall_mem_cons] at h
    simp only [along, Scope.slot, h.1.1, h.1.2, ih h.2]

/-! ## Resolving in a table that comes about by changes -/

/-- Outside the two fixed scopes there is nothing else. -/
theorem Rooted.lt_two_of_mem (ht : t.Rooted) (h : t.Chain s chain) (hs : s < 2) : ∀ r ∈ chain, r < 2 := by
  have houtermost : ∀ {rest}, t.Chain builtins rest → rest = [builtins] := fun hrest =>
    (Chain.outermost (Nat.lt_of_succ_lt ht.two_le_size) ht.parent_builtins).unique hrest
  obtain rfl | rfl : s = builtins ∨ s = globals := by
    simp only [builtins, globals]
    omega
  · rw [houtermost h]
    simp [builtins]
  · cases h with
    | outermost _ _ => simpa using hs
    | inner _ hparent hrest =>
      cases ht.parent_globals.symm.trans hparent
      rw [houtermost hrest]
      simp only [List.forall_mem_cons]
      exact ⟨hs, Nat.zero_lt_two, List.forall_mem_nil _⟩

/-- All scopes on the way to a dynamic one are dynamic. -/
theorem Rooted.two_le_of_mem (ht : t.Rooted) {before after : List Nat} {r : Nat}
    (h : t.Chain s (before ++ r :: after)) (hr : 2 ≤ r) : ∀ q ∈ before, 2 ≤ q := by
  intro q hq
  obtain ⟨front, back, rfl⟩ := List.append_of_mem hq
  have htail : t.Chain q (q :: (back ++ r :: after)) := h.suffix (List.append_assoc front (q :: back) (r :: after))
  by_contra hlt
  have := ht.lt_two_of_mem htail (by omega) r (by simp)
  omega

theorem Chain.mono (h : t.Chain s chain) (ht : t.Extends t') : t'.Chain s chain := by
  induction h with
  | outermost hs hparent =>
    exact .outermost (Nat.lt_of_lt_of_le hs ht.size_le) (by rw [ht.get_eq hs]; exact hparent)
  | inner hs hparent _ ih =>
    exact .inner (Nat.lt_of_lt_of_le hs ht.size_le) (by rw [ht.get_eq hs]; exact hparent) ih

theorem Chain.bind (h : t.Chain s chain) (u : Nat) (n : String) : (t.bind u n).Chain s chain := by
  induction h with
  | outermost hs hparent => exact .outermost (by simpa using hs) (by rw [(t.get_bind_eq u n _).1, hparent])
  | inner hs hparent _ ih => exact .inner (by simpa using hs) (by rw [(t.get_bind_eq u n _).1, hparent]) ih

/-- A scope that is opened is on no way out that was there before. -/
theorem Chain.resolve_child (h : t.Chain s chain) (name : String) (outer : Nat) :
    (t.child outer).2.resolve s name = t.resolve s name := by
  rw [h.resolve_eq, (h.mono (t.extends_child outer)).resolve_eq]
  refine along_congr fun r hr => ?_
  rw [t.get_child_of_lt (h.lt_size r hr)]
  exact ⟨rfl, rfl⟩

/-- One more name behind others is seen only by that name, and only if it is not among them. -/
theorem of_idxOf?_append_ne {names : List String} {n : String}
    (hne : (names ++ [n]).idxOf? name ≠ names.idxOf? name) : name = n ∧ n ∉ names := by
  have happend : (names ++ [n]).idxOf? name =
      (names.idxOf? name).or (([n].idxOf? name).map (· + names.length)) := List.findIdx?_append
  rcases hi : names.idxOf? name with _ | i
  · rw [happend, hi, Option.none_or] at hne
    have hname : name = n := by
      by_contra hname
      refine hne ?_
      have hnone : [n].idxOf? name = none := List.idxOf?_eq_none_iff.2 (by simpa using hname)
      rw [hnone]
      rfl
    exact ⟨hname, hname ▸ List.idxOf?_eq_none_iff.1 hi⟩
  · rw [happend, hi] at hne
    exact absurd rfl hne

/-- A name that is bound matters to that name only, and only to the scopes from which the way out comes to the scope
before it comes to any other one with the name. -/
theorem Chain.of_resolve_bind_ne (h : t.Chain s chain) {u : Nat} {n : String}
    (hne : (t.bind u n).resolve s name ≠ t.resolve s name) : name = n ∧ n ∉ (t.get u).names ∧
      ∃ before after, chain = before ++ u :: after ∧ ∀ q ∈ before, n ∉ (t.get q).names := by
  rw [h.resolve_eq, (h.bind u n).resolve_eq] at hne
  have hother : ∀ {r}, r ≠ u → ((t.bind u n).get r).names = (t.get r).names := by
    intro r hr
    rw [get_bind_of_ne _ _ hr]
  have hlocation : ∀ r, ((t.bind u n).get r).location = (t.get r).location := fun r => (t.get_bind_eq u n r).2
  have hu : u ∈ chain := by
    -- a scope that is not on the way has no part in it
    by_contra hu
    refine hne (along_congr fun r hr => ⟨?_, hlocation r⟩)
    rw [hother fun heq => hu (heq ▸ hr)]
  obtain ⟨rfl, hnew⟩ : name = n ∧ n ∉ (t.get u).names := by
    refine of_idxOf?_append_ne fun heq => hne (along_congr fun r hr => ⟨?_, hlocation r⟩)
    by_cases hr : r = u
    · rw [hr, get_bind_self t n (h.lt_size u hu)]
      exact heq
    · rw [hother hr]
  obtain ⟨before, after, rfl⟩ := List.append_of_mem hu
  refine ⟨rfl, hnew, before, after, rfl, fun q hq hqname => hne ?_⟩
  -- a scope in front of `u` has the name, and `u` comes only once
  have hbefore : ∀ r ∈ before, r ≠ u := by
    rintro r hr rfl
    exact (List.nodup_append.1 h.nodup).2.2 r hr r List.mem_cons_self rfl
  have hqname' : name ∈ ((t.bind u name).get q).names := by rwa [hother (hbefore q hq)]
  rw [along_append_of_mem ⟨q, hq, hqname'⟩, along_append_of_mem ⟨q, hq, hqname⟩]
  refine along_congr fun r hr => ⟨?_, hlocation r⟩
  rw [hother (hbefore r hr)]

/-- Where a name is found that the way out of a scope finds in the scope `r` first, behind the scopes `passed`. -/
def FoundIn (t : ScopeTable) (name : String) (passed : List Nat) (r : Nat) (found : Option Resolution) : Prop :=
  if r = builtins ∨ r = globals then
    ∃ location, (t.get r).location = some location ∧ found = some (.fixed location ((t.get r).names.idxOf name))
  else
    found = some (.dynamic passed.length ((t.get r).names.idxOf name)) ∧ ∀ q ∈ passed, (t.get q).location = none

theorem Rooted.foundIn (ht : t.Rooted) {before after : List Nat} {r : Nat} (h : t.Chain s (before ++ r :: after))
    (hbefore : ∀ q ∈ before, name ∉ (t.get q).names) (hr : name ∈ (t.get r).names) :
    t.FoundIn name before r (t.resolve s name) := by
  rw [h.resolve_eq, along_of_first hbefore hr, FoundIn]
  split
  · next hfixed =>
    obtain ⟨location, hlocation⟩ : ∃ location, (t.get r).location = some location := by
      rcases hfixed with rfl | rfl
      · exact ⟨_, ht.location_builtins⟩
      · exact ⟨_, ht.location_globals⟩
    refine ⟨location, hlocation, ?_⟩
    rw [Scope.slot, hlocation]
    rfl
  · next hdynamic =>
    have htwo : 2 ≤ r := by
      simp only [builtins, globals, not_or] at hdynamic
      omega
    refine ⟨?_, fun q hq => ht.location_inner q (ht.two_le_of_mem h htwo q hq)⟩
    rw [Scope.slot, ht.location_inner r htwo]
    simp [Resolution.fromBelow]

/-- Resolving names in a table that comes about by opening scopes and binding names, in any order. If every scope is
opened inside one that is there, there is a way out of each. Along it, a name is found in the first scope with that name,
and there at its first slot. A scope that is opened changes nothing for the others, and a name that is bound only what
that name means on the ways that come to its scope first. -/
theorem resolve_exact {changes : List Change} {t : ScopeTable} (ht : ofChanges changes = t) :
    (initial.InPlace changes → ∀ s < t.size, ∃ chain, t.Chain s chain) ∧
      ∀ s chain, t.Chain s chain → ∀ name,
        (t.resolve s name = none ↔ ∀ r ∈ chain, name ∉ (t.get r).names) ∧
        (∀ before r after, chain = before ++ r :: after → (∀ q ∈ before, name ∉ (t.get q).names) →
          name ∈ (t.get r).names → t.FoundIn name before r (t.resolve s name)) ∧
        (∀ outer, (t.child outer).2.resolve s name = t.resolve s name) ∧
        ∀ u n, (t.bind u n).resolve s name ≠ t.resolve s name → name = n ∧ n ∉ (t.get u).names ∧
          ∃ before after, chain = before ++ u :: after ∧ ∀ q ∈ before, n ∉ (t.get q).names := by
  subst ht
  have hrooted := rooted_ofChanges changes
  refine ⟨fun hplace s hs => exists_chain (ordered_ofChanges hplace) hs, fun s chain h name => ⟨?_, ?_, ?_, ?_⟩⟩
  · rw [h.resolve_eq, along_eq_none_iff]
  · rintro before r after rfl hbefore hr
    exact hrooted.foundIn h hbefore hr
  · exact h.resolve_child name
  · exact fun u n => h.of_resolve_bind_ne

/-- A name that is bound twice in one scope is found at its first slot, from two scopes further in, and a name that is
bound in between hides it. -/
theorem resolve_twice :
    ∃ changes t, ofChanges changes = t ∧ initial.InPlace changes ∧ (∀ s < t.size, ∃ chain, t.Chain s chain) ∧
      t.Chain 4 [4, 3, 2, 1, 0] ∧ t.resolve 4 "n" = some (.dynamic 2 1) ∧
      (t.bind 3 "n").resolve 4 "n" ≠ t.resolve 4 "n" ∧ (t.bind 2 "n").resolve 4 "n" = t.resolve 4 "n" := by
  let changes : List Change := [.child 1, .bind 2 "k", .bind 2 "n", .bind 2 "n", .child 2, .child 3]
  have hplace : initial.InPlace changes := ⟨by decide, by decide, by decide, trivial⟩
  have hchain : (ofChanges changes).Chain 4 [4, 3, 2, 1, 0] :=
    .inner (by decide) rfl (.inner (by decide) rfl (.inner (by decide) rfl (.inner (by decide) rfl
      (.outermost (by decide) rfl))))
  obtain ⟨hways, hall⟩ := resolve_exact (rfl : ofChanges changes = _)
  obtain ⟨-, hfirst, -, hbind⟩ := hall 4 _ hchain "n"
  refine ⟨changes, _, rfl, hplace, hways hplace, hchain, ?_, by decide, ?_⟩
  · exact (hfirst [4, 3] 2 [1, 0] rfl (by decide) (by decide)).1
  · by_contra hne
    exact absurd (hbind 2 "n" hne).2.1 (by decide)

end ScopeTable

end Lamcode
