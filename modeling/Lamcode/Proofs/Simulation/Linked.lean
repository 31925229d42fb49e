import Lamcode.Proofs.Compile.Draft
import Lamcode.Proofs.Link.Sections
import Lamcode.Proofs.Simulation.World

/-!
# Lamcode.Proofs.Simulation.Linked — compiled programs as images

The sections of a compiled program, and from its link the image that the simulation is about: where the allocator,
the built-ins, the records and the cursor stand, and that the code of the trees stands with its function bodies.
-/

namespace Lamcode

open Layout Emit Operand

variable {L : Layout} {words : List Int} {t : ScopeTable} {site : Site}

theorem evaluate_addr {addresses : Addresses} {l : Label} {a : Nat} {v : Int}
    (hl : addresses[l.index]? = some a) (hv : Assembly.evaluate addresses (.addr l) = .ok v) : v = a := by
  simp only [Assembly.evaluate, hl] at hv
  cases hv
  rfl

/-! ## Built-ins -/

theorem Stands.level {outer a a' : Nat} {param : String} {f : Nat → Emit (List Item)}
    (h : Stands L t site (openScope outer >>= fun scope => bindName scope param >>= fun _ => f scope) a a') :
    Stands L ((t.child outer).2.bind t.size param) site (f t.size) a a' := by
  obtain ⟨items, hitems, hplaced⟩ := h
  exact ⟨items, hitems.openScope.bindName, hplaced⟩

theorem Stands.concat_last {e : Emit (List Item)} {a a' : Nat} (h : Stands L t site (concat [e]) a a') :
    Stands L t site e a a' := by
  obtain ⟨items, hitems, hplaced⟩ := h
  exact ⟨items, hitems.concat_last, hplaced⟩

namespace Simulation

/-- The levels of a built-in stand where its entry label says. -/
theorem levelsAt_of_stands {inner : Emit (List Item)} (hinner : Steady inner) {outer a a' : Nat}
    {entry : Label} {param : String} {rest : List String}
    (h : Stands L t site (Builtin.levels inner outer entry param rest) a a') :
    L.addresses[entry.index]? = some a ∧ LevelsAt L inner t outer a param rest := by
  induction rest generalizing t outer a entry param with
  | nil =>
    obtain ⟨_, hlabel, hs⟩ := h.level.concat_cons (.placeLabel _)
    obtain ⟨rfl, hentry⟩ := hlabel.placeLabel
    obtain ⟨a₁, hbody, hback⟩ := hs.concat_cons (.within _ hinner)
    exact ⟨hentry, site, a₁, a', hbody, hback⟩
  | cons next rest ih =>
    obtain ⟨below, hs⟩ := h.level.fresh
    obtain ⟨_, hlabel, hbehind⟩ := hs.concat_cons (.placeLabel _)
    obtain ⟨rfl, hentry⟩ := hlabel.placeLabel
    obtain ⟨a₁, hcode, hlast⟩ := hbehind.concat_append [_, _, _, _, _] (.concat (by simp))
    obtain ⟨hbelow, hlevels⟩ := ih hlast.concat_last
    exact ⟨hentry, site, below, a₁, a₁, hbelow, hcode, hlevels⟩

/-- A built-in stands as a closure over the record of the built-ins, with its levels behind it. -/
theorem builtinAt_of_usedAt {b : Builtin} {l : Label} {code : List Item} {x record : Nat}
    {builtins : List Builtin} (hcode : Emits t site (b.code l) code)
    (hhead : L.UsedAt words .fixed x (code.take 2)) (htail : L.CodeAt (x + Item.size (code.take 2)) (code.drop 2))
    (hrecord : L.addresses[Label.builtinScope.index]? = some record)
    (haddress : ∀ {l : Label} {a : Nat}, L.addresses[l.index]? = some a → a < Memory.addressLimit)
    (ht : t.get ScopeTable.builtins = builtinScope builtins) :
    L.addresses[l.index]? = some x ∧ BuiltinAt L record builtins b x := by
  unfold Builtin.code at hcode
  unfold BuiltinAt
  cases hparams : b.params with
  | nil =>
    rw [hparams] at hcode
    obtain rfl := hcode.pure
    exact ⟨hhead.1.address l (List.mem_singleton_self l), trivial⟩
  | cons param rest =>
    rw [hparams] at hcode
    obtain ⟨entry, -, hcode⟩ := hcode.bind (.fresh _)
    obtain ⟨levels, hlevels, rfl⟩ := hcode.map
    have hsize : Item.size (List.take 2 (.labeled (.addr entry) l :: .word (.addr .builtinScope) :: levels)) = 2 :=
      rfl
    rw [hsize] at htail
    obtain ⟨hclosure, hscope, -⟩ := hhead
    obtain ⟨hentry, hlevelsAt⟩ := levelsAt_of_stands (.builtinBody b) ⟨levels, hlevels, htail, rfl⟩
    obtain ⟨v, hv, hfrozen⟩ := hclosure.frozen
    obtain ⟨w, hw, hfrozen'⟩ := hscope.frozen
    obtain rfl := evaluate_addr hentry hv
    obtain rfl := evaluate_addr hrecord hw
    exact ⟨hclosure.address l (List.mem_singleton_self l), _, t, hfrozen, haddress hentry, hfrozen', ht, hlevelsAt⟩

/-- Every built-in that was declared stands somewhere. -/
theorem exists_builtinAt {declared : List (Builtin × Label)} {code : List (Builtin × List Item)}
    {record a : Nat} {builtins : List Builtin}
    (hcode : List.Forall₂ (fun x y => y.1 = x.1 ∧ ∃ t', t.Extends t' ∧ Emits t' site (x.1.code x.2) y.2)
      declared code)
    (hs : L.SectionsAt words a (code.flatMap fun y => [(.fixed, y.2.take 2), (.code, y.2.drop 2)]))
    (hrecord : L.addresses[Label.builtinScope.index]? = some record)
    (haddress : ∀ {l : Label} {a : Nat}, L.addresses[l.index]? = some a → a < Memory.addressLimit)
    (hsize : ScopeTable.builtins < t.size) (ht : t.get ScopeTable.builtins = builtinScope builtins)
    {i : Nat} {b : Builtin} {l : Label} (hi : declared[i]? = some (b, l)) :
    ∃ x, L.addresses[l.index]? = some x ∧ BuiltinAt L record builtins b x := by
  induction hcode generalizing a i with
  | nil => simp at hi
  | @cons x y declared code hxy _ ih =>
    obtain ⟨-, t', ht', hy⟩ := hxy
    rw [List.flatMap_cons, sectionsAt_append] at hs
    obtain ⟨⟨hhead, htail, -⟩, hrest⟩ := hs
    cases i with
    | zero =>
      obtain rfl : x = (b, l) := by simpa using hi
      exact ⟨a, builtinAt_of_usedAt hy hhead htail.codeAt hrecord haddress ((ht'.get_eq hsize).trans ht)⟩
    | succ i => exact ih hrest (by simpa using hi)

/-! ## Whole programs -/

/-- What a program is made of before it is linked. -/
structure Parts where
  /-- The code of the assignments, and the allocator behind it. -/
  front : List Item
  declared : List (Builtin × Label)
  builtins : List (Builtin × List Item)
  globals : List String
  bodies : List Item
  ramBegin : Nat

namespace Parts

variable (P : Parts)

/-- The sections of the built-ins: each one is a closure that never changes, and its code. -/
def builtinSections : List (Use × List Item) :=
  P.builtins.flatMap fun y => [(.fixed, y.2.take 2), (.code, y.2.drop 2)]

/-- The sections of a program in the order they are linked in. -/
def sections : List (Use × List Item) :=
  (.code, P.front) :: P.builtinSections ++
    [(.fixed, .labeled (.num 0) .builtinScope :: P.declared.map fun x => .word (.addr x.2)),
      (.fixed, [.labeled (.addr .builtinScope) .globalScope]),
      (.data, P.globals.map fun _ => .word (.num 0)), (.code, P.bodies),
      (.data, [.labeled (.num P.ramBegin) .ramPointer, .labeled (.addr .globalScope) .stackBegin])]

theorem flatMap_sections : P.sections.flatMap Prod.snd =
    P.front ++ P.builtins.flatMap (·.2) ++
      .labeled (.num 0) .builtinScope :: P.declared.map (fun (_, l) => .word (.addr l)) ++
      .labeled (.addr .builtinScope) .globalScope :: P.globals.map (fun _ => .word (.num 0)) ++
      P.bodies ++ [.labeled (.num P.ramBegin) .ramPointer, .labeled (.addr .globalScope) .stackBegin] := by
  have hbuiltins : P.builtinSections.flatMap Prod.snd = P.builtins.flatMap (·.2) := by
    unfold builtinSections
    induction P.builtins with
    | nil => rfl
    | cons y builtins ih =>
      rw [List.flatMap_cons, List.flatMap_append, ih, List.flatMap_cons]
      simp only [List.flatMap_cons, List.flatMap_nil, List.append_nil, List.take_append_drop]
  simp [sections, hbuiltins]

/-- Where the parts of a program stand. -/
structure Standing (L : Layout) (words : List Int) (record globalRecord cursor : Nat) : Prop where
  codeAt_front : L.CodeAt 0 P.front
  exists_builtins : ∃ a, L.SectionsAt words a P.builtinSections
  address_record : L.addresses[Label.builtinScope.index]? = some record
  member : ∀ {i : Nat} {x : Builtin × Label}, P.declared[i]? = some x →
    L.CellUsed words .fixed (record + 1 + i) (.plain (.addr x.2))
  address_globalRecord : L.addresses[Label.globalScope.index]? = some globalRecord
  slot : ∀ {i : Nat}, i < P.globals.length →
    L.CellUsed words .data (globalRecord + 1 + i) (.plain (.num 0)) ∧ globalRecord + 1 + i < cursor
  exists_bodies : ∃ a, L.CodeAt a P.bodies
  cursorUsed : L.CellUsed words .data cursor (.labeled (.num P.ramBegin) .ramPointer)
  stackBeginUsed : L.CellUsed words .data (cursor + 1) (.labeled (.addr .globalScope) .stackBegin)

theorem exists_standing (hs : L.SectionsAt words 0 P.sections) :
    ∃ record globalRecord cursor, P.Standing L words record globalRecord cursor ∧
      Item.size (P.sections.flatMap Prod.snd) = cursor + 2 := by
  obtain ⟨hfront, hs⟩ := hs
  obtain ⟨hbuiltins, hrecord, hglobals, hslots, hbodies, hend, -⟩ := sectionsAt_append.1 hs
  obtain ⟨hrecordUsed, hmembers⟩ := hrecord
  refine ⟨_, _, _, ⟨hfront.codeAt, ⟨_, hbuiltins⟩, hrecordUsed.address _ (List.mem_singleton_self _),
    hmembers.cellUsed, hglobals.1.address _ (List.mem_singleton_self _), fun {i} hi => ⟨?_, ?_⟩,
    ⟨_, hbodies.codeAt⟩, hend.1, hend.2.1⟩, ?_⟩
  · exact hslots.cellUsed (x := P.globals.get ⟨i, hi⟩) (List.getElem?_eq_getElem hi)
  · have hsize : Item.size (P.globals.map fun _ => .word (.num 0)) = P.globals.length :=
      Item.size_map_cell (fun _ => .plain (.num 0)) P.globals
    simp only [Item.labeled, Item.size_cell, Item.size_nil, hsize]
    omega
  · simp only [sections, List.flatMap_append, List.flatMap_cons, List.flatMap_nil, Item.size_append,
      Item.labeled, Item.size_cell, Item.size_nil]
    omega

/-- The slot of each built-in in their record holds the address where it stands. -/
theorem Standing.exists_member {P : Parts} {record globalRecord cursor : Nat} {builtins : List Builtin}
    (hL : P.Standing L words record globalRecord cursor)
    (hcode : List.Forall₂ (fun x y => y.1 = x.1 ∧ ∃ t', t.Extends t' ∧ Emits t' site (x.1.code x.2) y.2)
      P.declared P.builtins)
    (haddress : ∀ {l : Label} {a : Nat}, L.addresses[l.index]? = some a → a < Memory.addressLimit)
    (hsize : ScopeTable.builtins < t.size) (ht : t.get ScopeTable.builtins = builtinScope builtins)
    {i : Nat} {b : Builtin} (hi : (P.declared.map Prod.fst)[i]? = some b) :
    ∃ x : Nat, L.frozen (record + 1 + i) = some x ∧ BuiltinAt L record builtins b x := by
  rw [List.getElem?_map] at hi
  obtain ⟨⟨b', l⟩, hdeclared, hb⟩ := Option.map_eq_some_iff.1 hi
  obtain rfl : b' = b := hb
  obtain ⟨a, hsections⟩ := hL.exists_builtins
  obtain ⟨x, hx, hat⟩ := exists_builtinAt hcode hsections hL.address_record haddress hsize ht hdeclared
  obtain ⟨v, hv, hfrozen⟩ := (hL.member hdeclared).frozen
  obtain rfl := evaluate_addr hx hv
  exact ⟨x, hfrozen, hat⟩

end Parts

/-- What the words of an image hold before it is run, and where the code of the assignments stands. -/
structure Boots (I : Image) (assignments : List (Assignment Site Header)) (words : List Int) : Prop where
  length_words : words.length = I.stackBegin + 1
  word_of_frozen : ∀ {x v : Int}, I.layout.frozen x = some v → ∃ a : Nat, x = a ∧ words[a]? = some v
  word_cursor : words[I.cursor]? = some (I.ramBegin : Int)
  word_stackBegin : words[I.stackBegin]? = some (I.globalRecord : Int)
  word_slot : ∀ {i : Nat}, i < assignments.length → words[I.globalRecord + 1 + i]? = some 0
  free_slot : ∀ {i : Nat}, i < assignments.length →
    I.layout.frozen (I.globalRecord + 1 + i : Nat) = none ∧
      ¬ I.layout.scratch (I.globalRecord + 1 + i : Nat) ∧ I.globalRecord + 1 + i < I.cursor
  address_stackBegin : I.layout.addresses[Label.stackBegin.index]? = some I.stackBegin
  get_builtins : I.scopes.get ScopeTable.builtins = builtinScope I.builtins
  get_globals : I.scopes.get ScopeTable.globals =
    ⟨some ScopeTable.builtins, some .globalScope, assignments.map Assignment.name⟩
  scopedIn : Assignment.AllScopedIn I.scopes ScopeTable.globals assignments
  code : ∃ site a₁ a₂ h h',
    Stands I.layout I.scopes site (adjustBase (.offset (.addressOf .stackBegin) (.int 2))) 0 a₁ ∧
      FragmentStands I.layout I.scopes site (Assignment.emitAll ScopeTable.globals assignments) a₁ a₂ h h' ∧
      I.layout.CodeAt a₂ halt

/-- The parts of a linked program and where they stand, with the labels of function bodies. -/
structure Placed (p : Program) (o : Options) (bodies : List Label) (asm : Assembly) (P : Parts) (L : Layout)
    (record globalRecord cursor : Nat) : Prop where
  standing : P.Standing L asm.words record globalRecord cursor
  addresses_eq : L.addresses = asm.addresses
  globals_eq : P.globals = (p.scopes.get ScopeTable.globals).names
  ramBegin_eq : P.ramBegin = o.ramBegin
  declared_eq : P.declared.map Prod.fst = Builtin.chosen p.usedNames
  builtins : ∃ site, List.Forall₂
    (fun x y => y.1 = x.1 ∧ ∃ t', (Compile.table p).Extends t' ∧ Emits t' site (x.1.code x.2) y.2)
    P.declared P.builtins
  length_words : asm.words.length = cursor + 2
  word_of_frozen : ∀ {x v : Int}, L.frozen x = some v → ∃ a : Nat, x = a ∧ a < cursor + 2 ∧ asm.words[a]? = some v
  lt_of_scratch : ∀ {x : Int}, L.scratch x → ∃ a : Nat, x = a ∧ a < cursor + 2
  address_lt : ∀ {l : Label} {a : Nat}, L.addresses[l.index]? = some a → a < Memory.addressLimit
  code : ∃ site a₁ a₂ h h',
    Stands L (Compile.table p) site (adjustBase (.offset (.addressOf .stackBegin) (.int 2))) 0 a₁ ∧
      FragmentBetween L (Compile.table p) site [] bodies (Assignment.emitAll ScopeTable.globals p.assignments)
        a₁ a₂ h h' ∧
      L.CodeAt a₂ halt
  allocator : ∃ site a a', L.addresses[Label.allocateScope.index]? = some a ∧
    Stands L (Compile.table p) site (concat [copy (.wordAt .ramPointer) (rel 3), writeToRam (rel 1),
      addTo (rel 0) (.wordAt .ramPointer), copy (rel 3) (rel 0), jump (rel 2)]) a a'

/-- A program that is linked and fits into memory is placed. -/
theorem exists_placed {p : Program} {o : Options} {d : Compile.Draft} {s : EmitState} {asm : Assembly}
    (hdraft : Compile.runDraft p o = (.ok d, s)) (hlink : Assembly.link s.labels d.items = .ok asm)
    (hlimit : asm.words.length ≤ Memory.addressLimit) :
    ∃ P L record globalRecord cursor, Placed p o s.labels.bodies asm P L record globalRecord cursor := by
  obtain ⟨hholds, hlength, haddress⟩ := Assembly.link_holds hlink
  obtain ⟨declared, start, main, allocate, hdeclared, ⟨hstart, hmain, hallocate, hbuiltins⟩, hitems⟩ :=
    Compile.exists_between_of_runDraft hdraft
  let P : Parts := ⟨start ++ main.inPlace ++ halt ++ allocate, declared, d.builtins,
    (p.scopes.get ScopeTable.globals).names, main.hoisted, o.ramBegin⟩
  have hP : P.sections.flatMap Prod.snd = d.items := P.flatMap_sections.trans hitems.symm
  rw [← hP] at hholds hlength
  have hfits : Item.size (P.sections.flatMap Prod.snd) ≤ Memory.addressLimit := by omega
  have hsections : (asm.layout P.sections hfits).SectionsAt asm.words 0 P.sections :=
    Assembly.sectionsAt_of_holds hholds
  obtain ⟨record, globalRecord, cursor, hL, hcursor⟩ := P.exists_standing hsections
  -- the code in front: start, assignments, halt and allocator
  obtain ⟨⟨⟨hstartAt, hmainAt⟩, hhaltAt⟩, hallocateAt⟩ :=
    (codeAt_append.1 hL.codeAt_front).imp_left fun h => (codeAt_append.1 h).imp_left codeAt_append.1
  rw [Item.size_append, ← Nat.add_assoc] at hhaltAt
  obtain ⟨bodies, hbodiesAt⟩ := hL.exists_bodies
  obtain ⟨_, hlabel, hallocator⟩ := Stands.concat_cons (.placeLabel _) ⟨allocate, hallocate, hallocateAt, rfl⟩
  obtain ⟨rfl, hallocatorAddress⟩ := hlabel.placeLabel
  refine ⟨P, asm.layout P.sections hfits, record, globalRecord, cursor, ?_⟩
  exact
    { standing := hL
      addresses_eq := rfl
      globals_eq := rfl
      ramBegin_eq := rfl
      declared_eq := hdeclared
      builtins := ⟨_, hbuiltins⟩
      length_words := hlength.trans hcursor
      word_of_frozen := fun {x v} (h : (asm.layout P.sections hfits).frozen x = some v) => by
        obtain ⟨a, rfl, hlt, ha⟩ := Assembly.exists_of_frozen h
        exact ⟨a, rfl, by omega, ha⟩
      lt_of_scratch := fun {x} (h : (asm.layout P.sections hfits).scratch x) => by
        obtain ⟨a, rfl, hlt⟩ := Assembly.exists_of_scratch h
        exact ⟨a, rfl, by omega⟩
      address_lt := fun h => by
        have := haddress h
        omega
      code := ⟨_, _, _, _, _, ⟨start, hstart, hstartAt, rfl⟩, ⟨main, hmain, hmainAt, rfl, hbodiesAt, rfl⟩, hhaltAt⟩
      allocator := ⟨_, _, _, hallocatorAddress, hallocator⟩ }

/-- What an image was made from, and what its words hold before it is run. -/
structure Image.MadeFrom (I : Image) (p : Program) (o : Options) (bodies : List Label) (asm : Assembly) : Prop where
  boots : Boots I p.assignments asm.words
  addresses_eq : I.layout.addresses = asm.addresses
  builtins_eq : I.builtins = Builtin.chosen p.usedNames
  ramBegin_eq : I.ramBegin = o.ramBegin
  code : ∃ site a₁ a₂ h h',
    Stands I.layout I.scopes site (adjustBase (.offset (.addressOf .stackBegin) (.int 2))) 0 a₁ ∧
      FragmentBetween I.layout I.scopes site [] bodies (Assignment.emitAll ScopeTable.globals p.assignments)
        a₁ a₂ h h' ∧
      I.layout.CodeAt a₂ halt

/-- A program that is placed is an image, if there is room for its stack and its heap. -/
theorem Placed.exists_image {p : Program} (hp : p.WellScoped) {o : Options} {room : Reference.Room}
    {bodies : List Label} {asm : Assembly} {P : Parts} {record globalRecord cursor : Nat}
    (hplaced : Placed p o bodies asm P L record globalRecord cursor)
    (hstack : asm.words.length + 1 + room.stack ≤ o.ramBegin)
    (hheap : o.ramBegin + room.heap ≤ Memory.addressLimit) :
    ∃ I : Image, I.room = room ∧ I.MadeFrom p o bodies asm := by
  have hL := hplaced.standing
  have hlength := hplaced.length_words
  have hbuiltinScope : (Compile.table p).get ScopeTable.builtins = builtinScope (Builtin.chosen p.usedNames) :=
    Compile.get_table_builtins hp
  have hcursorUsed := hL.cursorUsed.content
  have hstackUsed := hL.stackBeginUsed.content
  obtain ⟨_, hbuiltins⟩ := hplaced.builtins
  obtain ⟨_, allocator, _, hallocatorAddress, hallocator⟩ := hplaced.allocator
  let I : Image :=
    { layout := L
      scopes := Compile.table p
      builtins := Builtin.chosen p.usedNames
      room := room
      stackBegin := cursor + 1
      ramBegin := o.ramBegin
      cursor := cursor
      builtinRecord := record
      globalRecord := globalRecord
      allocator := allocator
      frozen_bounds := fun h => by
        obtain ⟨a, rfl, hlt, -⟩ := hplaced.word_of_frozen h
        have hne : a ≠ cursor + 1 := by
          rintro rfl
          rw [hstackUsed.1] at h
          cases h
        omega
      scratch_bounds := fun h => by
        obtain ⟨a, rfl, hlt⟩ := hplaced.lt_of_scratch h
        have hne : a ≠ cursor + 1 := by
          rintro rfl
          exact hstackUsed.2 h
        omega
      cursor_lt := Nat.lt_succ_self _
      not_scratch_cursor := hcursorUsed.2
      frozen_cursor := hcursorUsed.1
      address_cursor := hL.cursorUsed.address _ (List.mem_singleton_self _)
      address_builtins := hL.address_record
      address_globals := hL.address_globalRecord
      address_allocator := hallocatorAddress
      address_lt := hplaced.address_lt
      stack_fits := by omega
      heap_fits := hheap
      allocator_stands := ⟨_, _, hallocator⟩
      builtin_stands := fun hi =>
        hL.exists_member hbuiltins hplaced.address_lt (Compile.builtins_lt_table hp) hbuiltinScope
          (hplaced.declared_eq.symm ▸ hi) }
  have hcount : P.globals.length = p.assignments.length := by
    rw [hplaced.globals_eq, hp.get_globals, List.length_map]
  obtain ⟨site, a₁, a₂, h, h', hstart, hmain, hhalt⟩ := hplaced.code
  refine ⟨I, rfl, ?_, hplaced.addresses_eq, rfl, rfl, site, a₁, a₂, h, h', hstart, hmain, hhalt⟩
  exact
    { length_words := hlength
      word_of_frozen := fun {x v} (h : L.frozen x = some v) => by
        obtain ⟨a, rfl, -, ha⟩ := hplaced.word_of_frozen h
        exact ⟨a, rfl, ha⟩
      word_cursor := by
        obtain ⟨v, hv, hword⟩ := hL.cursorUsed.word
        cases hv
        rw [hplaced.ramBegin_eq] at hword
        exact hword
      word_stackBegin := by
        obtain ⟨v, hv, hword⟩ := hL.stackBeginUsed.word
        obtain rfl := evaluate_addr hL.address_globalRecord hv
        exact hword
      word_slot := fun hi => by
        obtain ⟨v, hv, hword⟩ := (hL.slot (hcount.symm ▸ hi)).1.word
        cases hv
        exact hword
      free_slot := fun hi => by
        obtain ⟨hused, hlt⟩ := hL.slot (hcount.symm ▸ hi)
        exact ⟨hused.content.1, hused.content.2, hlt⟩
      address_stackBegin := hL.stackBeginUsed.address _ (List.mem_singleton_self _)
      get_builtins := hbuiltinScope
      get_globals := Compile.get_table_globals hp
      scopedIn := Compile.allScopedIn_table hp
      code := ⟨site, a₁, a₂, h, h', hstart, hmain.stands, hhalt⟩ }

/-- A compiled program is an image, if there is room for its stack and its heap. -/
theorem exists_image {p : Program} (hp : p.WellScoped) {o : Options} {room : Reference.Room}
    {d : Compile.Draft} {s : EmitState} {asm : Assembly} (hdraft : Compile.runDraft p o = (.ok d, s))
    (hlink : Assembly.link s.labels d.items = .ok asm)
    (hstack : asm.words.length + 1 + room.stack ≤ o.ramBegin)
    (hheap : o.ramBegin + room.heap ≤ Memory.addressLimit) :
    ∃ I : Image, I.room = room ∧ I.layout.addresses = asm.addresses ∧ Boots I p.assignments asm.words := by
  obtain ⟨P, L, record, globalRecord, cursor, hplaced⟩ := exists_placed hdraft hlink (by omega)
  obtain ⟨I, hroom, hmade⟩ := hplaced.exists_image hp hstack hheap
  exact ⟨I, hroom, hmade.addresses_eq, hmade.boots⟩

/-! ## Running an image -/

/-- The memory that words are loaded into. -/
def loadedMem (words : List Int) : Int → Int :=
  fun x => (Memory.ofWords words).get x.toNat

theorem loadedMem_natCast (words : List Int) (a : Nat) : loadedMem words a = (words[a]?).getD 0 := by
  rw [loadedMem, Int.toNat_natCast, Memory.get_ofWords]

theorem loadedMem_of_length_le {words : List Int} {x : Int} (hx : words.length ≤ x) : loadedMem words x = 0 := by
  rw [loadedMem, Memory.get_ofWords, List.getElem?_eq_none (by omega), Option.getD_none]

/-- An image that is loaded has its frozen words. -/
theorem loaded_loadedMem {words : List Int}
    (hwords : ∀ {x v : Int}, L.frozen x = some v → ∃ a : Nat, x = a ∧ words[a]? = some v) :
    L.Loaded (loadedMem words) := by
  intro x v hx
  obtain ⟨a, rfl, ha⟩ := hwords hx
  rw [loadedMem_natCast, ha, Option.getD_some]

/-- Loading words makes a machine that stands at the first of them, with the base at 0. -/
theorem matches_loadedMem (words : List Int) (q : Queue) (status : Status) :
    L.Matches ((⟨0, loadedMem words, q⟩ : Data).config 0) { Machine.ofWords words with status := status } :=
  ⟨rfl, rfl, fun a _ => by
    change (Memory.ofWords words).get a = (Memory.ofWords words).get (a : Int).toNat
    rw [Int.toNat_natCast]⟩

/-- The first instruction moves the base above the word that the stack starts at. -/
theorem runs_start {t : ScopeTable} {site : Site} {mem : Int → Int} {q : Queue} {a stackBegin : Nat}
    (hmem : L.Loaded mem) (haddress : L.addresses[Label.stackBegin.index]? = some stackBegin)
    (hs : Stands L t site (adjustBase (.offset (.addressOf .stackBegin) (.int 2))) 0 a) :
    L.Runs ((⟨0, mem, q⟩ : Data).config 0) ((⟨stackBegin + 2, mem, q⟩ : Data).config a) := by
  obtain ⟨items, hitems, hcode, rfl⟩ := hs
  have hbegin : Means L t site.scope 0 mem (.addressOf .stackBegin) .immediate stackBegin :=
    .const (by simp only [Assembly.evaluate, haddress])
  have hyields : Yields L t site.scope ⟨0, mem, q⟩ (.offset (.addressOf .stackBegin) (.int 2)) (stackBegin + 2) :=
    ⟨.immediate, _, .offset hbegin (.const rfl : Means _ _ _ _ _ (.int 2) .immediate 2) rfl, rfl⟩
  have hruns := (adjustBase_leads (d := ⟨0, mem, q⟩) hmem hyields hitems hcode).runs
  rwa [show (0 : Int) + (stackBegin + 2) = stackBegin + 2 from Int.zero_add _] at hruns

/-- A machine that looks like a configuration in front of the halt is about to halt. -/
theorem get_ip_of_halt {d : Data} {a : Nat} {m : Machine} (hmem : L.Loaded d.mem) (hhalt : L.CodeAt a halt)
    (hmatches : L.Matches (d.config a) m) : m.memory.get m.ip.toNat = Opcode.halt.code := by
  have hip : m.ip.toNat = a := Machine.toNat_ip hmatches.ip hhalt.1.lt
  obtain ⟨⟨-, v, hv, hfrozen⟩, -⟩ := hhalt
  cases hv
  rw [hip, hmatches.shows _ (L.not_scratch_of_frozen hfrozen)]
  exact hmem hfrozen

end Simulation

end Lamcode
