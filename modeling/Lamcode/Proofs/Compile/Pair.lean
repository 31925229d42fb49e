import Lamcode.Proofs.Compile.Written

/-!
# Lamcode.Proofs.Compile.Pair — a whole program, written twice

The names in a built-in's code are its parameters, its own name and the built-ins it requires, so all of them resolve
and its code cannot fail to be written. With the trees this makes a whole program: two drafts of it, with whatever
choices, fail for the first variable that does not resolve, or are instances of one template that carries every label
that was handed out once (`couples_draft`).
-/

namespace Lamcode

open Emit Operand

/-! ## Bodies of built-ins -/

namespace Emit.Piece

variable {site : Site}

/-- An instruction whose operands carry no labels and mention no others than `refs`. -/
theorem plain (op : Opcode) {os : List Operand} {refs : List Label} {names : List String}
    (hos : os.all (·.mode?.isSome)) (hlabels : os.flatMap Operand.labels = [])
    (hrefs : os.flatMap Operand.refs = refs) (hnames : os.flatMap Operand.vars = names) :
    Piece Twins site (Emit.instruction op os) [] refs (names.map (Prod.mk site)) := by
  subst hrefs hnames
  exact (instruction op os (by simpa using hos)).restate hlabels (fun r hr => .inl hr) rfl

/-- A jump that depends on a word of its own, which code before it writes. -/
theorem branch (op : Opcode) (flag target : Label) :
    Piece Twins site (Emit.instruction op [.patched .immediate flag, .addressOf target]) [flag] [target] [] :=
  instruction op _ (by simp [Operand.patched, Operand.addressOf, Operand.imm, Operand.mode?, Cell.plain,
    Cell.labeled, Word.folded])

theorem compare (test : Builtin.Test) (wanted : Bool) :
    Piece Twins site (Builtin.compare test wanted) [] [] (["a", "b", "false", "true"].map (Prod.mk site)) := by
  refine fresh unordered_twins fun flag => fresh unordered_twins fun yes => fresh unordered_twins fun done => ?_
  have hbranch : Piece Twins site
      (if wanted then Emit.jumpIfTrue (.patched .immediate flag) (.addressOf yes)
        else Emit.jumpIfFalse (.patched .immediate flag) (.addressOf yes)) [flag] [yes] [] := by
    cases wanted <;> exact branch _ flag yes
  refine restate (perm unordered_twins (.cons
    (show Piece Twins site _ [] [flag] (["a", "b"].map (Prod.mk site)) by
      cases test <;> exact plain _ rfl rfl rfl rfl) <| .cons hbranch <| .cons (copied _ rfl rfl) <|
    .cons (jump rfl) <| .cons (placeLabel yes) <| .cons (copied _ rfl rfl) <| .cons (placeLabel done) nil)
    (List.reverse_perm [flag, yes, done]).symm) rfl (fun r hr => .inl ?_) rfl
  have hr : r ∈ [flag, yes, done] := hr
  simpa [or_comm, or_assoc, or_left_comm] using hr

theorem longDivision (result : Int) :
    Piece Twins site (Builtin.longDivision result) [] [] (["a", "b", "b"].map (Prod.mk site)) := by
  refine fresh unordered_twins fun head => fresh unordered_twins fun exit => fresh unordered_twins fun flag => ?_
  refine restate (perm unordered_twins (.cons (copied _ rfl rfl) <| .cons (plain _ rfl rfl rfl rfl) <|
    .cons (copied _ rfl rfl) <| .cons (copied _ rfl rfl) <| .cons (placeLabel head) <|
    .cons (plain _ rfl rfl rfl rfl) <| .cons (branch _ flag exit) <| .cons (plain _ rfl rfl rfl rfl) <|
    .cons (addTo .immediate .relative (.num 1) (.num 4) rfl rfl) <| .cons (jump rfl) <| .cons (placeLabel exit) <|
    .cons (copied _ rfl rfl) nil)
    (show ([head] ++ [flag, exit]).Perm ([flag, exit] ++ [head]) from List.perm_append_comm)) rfl
    (fun r hr => .inl ?_) rfl
  have hr : r ∈ [flag, exit, head] := hr
  simpa [or_comm, or_assoc, or_left_comm] using hr

/-- The names in the code of a built-in are its parameters, its own name and the names of what it requires. -/
theorem builtinBody (b : Builtin) : ∃ names : List String,
    (∀ name ∈ names, name ∈ b.params ++ b.name :: b.requires.map Builtin.name) ∧
    ∀ site, Piece Twins site b.body [] [] (names.map (Prod.mk site)) := by
  cases b <;> simp only [Builtin.params, Builtin.name, Builtin.requires, List.map_cons, List.map_nil]
  case unit => exact ⟨[], by simp, fun _ => nil⟩
  case print =>
    exact ⟨["x", "_"], by simp, fun _ => .cons (plain _ rfl rfl rfl rfl) <| .cons (copied _ rfl rfl) nil⟩
  case succ => exact ⟨["n"], by simp, fun _ => plain _ rfl rfl rfl rfl⟩
  case add | mult => exact ⟨["a", "b"], by simp, fun _ => plain _ rfl rfl rfl rfl⟩
  case truth => exact ⟨["first"], by simp, fun _ => copied _ rfl rfl⟩
  case falsity => exact ⟨["second"], by simp, fun _ => copied _ rfl rfl⟩
  case sequence => exact ⟨["do"], by simp, fun _ => copied _ rfl rfl⟩
  case eq => exact ⟨["a", "b", "false", "true"], by simp, fun _ => compare .equal true⟩
  case neq => exact ⟨["a", "b", "false", "true"], by simp, fun _ => compare .equal false⟩
  case lt => exact ⟨["a", "b", "false", "true"], by simp, fun _ => compare .less true⟩
  case sub =>
    exact ⟨["b", "a"], by simp, fun _ =>
      .cons (plain _ rfl rfl rfl rfl) <| .cons (plain _ rfl rfl rfl rfl) nil⟩
  case get => exact ⟨["tup", "pos"], by simp, fun _ => copied _ rfl rfl⟩
  case fst | snd => exact ⟨["t"], by simp, fun _ => copied _ rfl rfl⟩
  case mod => exact ⟨["a", "b", "b"], by simp, fun _ => longDivision 2⟩
  case div => exact ⟨["a", "b", "b"], by simp, fun _ => longDivision 4⟩
  case input => exact ⟨[], by simp, fun _ => plain _ rfl rfl rfl rfl⟩

end Emit.Piece

/-! ## Levels of built-ins -/

/-- Code that may open scopes: it carries the labels of `own` and those that it hands out. -/
def Emit.Opens (own : List Label) (t : ScopeTable) (L : LabelTable) (t' : ScopeTable) (L' : LabelTable)
    (xs ys : List Item) : Prop :=
  t.Extends t' ∧ t'.Grounded ∧ L.size ≤ L'.size ∧ Twins (own ++ Label.range L.size L'.size) L'.size xs ys

namespace Emit.Couples

variable {t : ScopeTable} {L : LabelTable} {site : Site}

/-- A piece whose names all resolve, as code that may open scopes. -/
theorem of_piece {e : Emit (List Item)} {own refs : List Label} {uses : List (Site × String)}
    (h : Piece Twins site e own refs uses) (ht : t.Grounded) (hL : LabelTable.reserved.size ≤ L.size)
    (hrefs : ∀ r ∈ refs, r.index < L.size) (huses : t.missing uses = none) :
    Couples t L site e e none (Opens own t L) := by
  have hpiece := h.couples ht hL hrefs
  rw [huses] at hpiece
  refine hpiece.mono ?_
  rintro t L' xs ys ⟨rfl, hle, htwins⟩
  exact ⟨.refl t, ht, hle, htwins⟩

/-- One more piece of code, behind code that may have opened scopes. -/
theorem concat_snoc {es : List (Emit (List Item))} {e : Emit (List Item)} {own own' : List Label}
    (h : Couples t L site (Emit.concat es) (Emit.concat es) none (Opens own t L))
    (k : ∀ t' L', t.Extends t' → t'.Grounded → L.size ≤ L'.size →
      Couples t' L' site e e none (Opens own' t' L')) :
    Couples t L site (Emit.concat (es ++ [e])) (Emit.concat (es ++ [e])) none (Opens (own ++ own') t L) := by
  rw [Emit.concat_append]
  refine bind_none h ?_
  rintro t₁ L₁ xs ys ⟨hext, hgrounded, hle, htwins⟩
  have hlast : Emit.concat [e] = e := by simp [Emit.concat]
  rw [hlast]
  refine bind_none (k t₁ L₁ hext hgrounded hle) ?_
  rintro t₂ L₂ xs' ys' ⟨hext', hgrounded', hle', htwins'⟩
  exact pure ⟨hext.trans hext', hgrounded', Nat.le_trans hle hle',
    ((htwins.mono hle').append htwins').perm (Piece.perm_append_range _ _ hle hle')⟩

/-- The levels of a built-in see their parameters and whatever is seen from around them. -/
theorem levels {inner : Emit (List Item)} {names : List String}
    (hinner : ∀ site, Piece Twins site inner [] [] (names.map (Prod.mk site))) {rest : List String} {param : String}
    {outer : Nat} {entry : Label} {visible : List String} (ht : t.Grounded) (hsees : t.Sees outer visible)
    (hnames : ∀ name ∈ names, name ∈ (param :: rest) ++ visible) (hL : LabelTable.reserved.size ≤ L.size) :
    Couples t L site (Builtin.levels inner outer entry param rest) (Builtin.levels inner outer entry param rest)
      none fun t' L' => Opens [entry] t L t' L' := by
  induction rest generalizing t L outer entry param visible with
  | nil =>
    refine openScope (bindName ?_)
    have hpiece : Piece Twins site (Emit.concat [Emit.placeLabel entry,
        Emit.within ⟨t.size, .generated⟩ inner, Emit.jump (rel 1)]) [entry] []
        (names.map (Prod.mk ⟨t.size, .generated⟩) ++ []) :=
      .cons (.placeLabel entry) <| .cons (.within (hinner _)) <| .cons (.jump rfl) .nil
    have hmissing : (t.level outer param).missing (names.map (Prod.mk ⟨t.size, .generated⟩) ++ []) = none := by
      rw [List.append_nil, ScopeTable.missing_eq_none]
      intro u hu
      obtain ⟨name, hname, rfl⟩ := List.mem_map.1 hu
      exact ((hsees.level param).exists_resolve_iff name).2 (hnames name hname)
    refine (of_piece hpiece (ht.level outer param) hL (fun _ h => (nomatch h)) hmissing).mono ?_
    rintro t' L' xs ys ⟨hext, hgrounded, hle, htwins⟩
    exact ⟨(t.extends_level outer param).trans hext, hgrounded, hle, htwins⟩
  | cons next rest ih =>
    refine openScope (bindName (fresh ?_))
    have hsize := size_fresh (L := L) param
    have hpiece : Piece Twins site (Emit.concat [Emit.placeLabel entry, Emit.copy (.wordAt .ramPointer) (rel 2),
        Emit.writeToRam (.addressOf ⟨L.size⟩), Emit.writeToRam (rel 0), Emit.copy (rel 2) (rel 0),
        Emit.jump (rel 1)]) [entry] [.ramPointer, ⟨L.size⟩] [] :=
      .cons (.placeLabel entry) <| .cons (.copied _ rfl rfl) <| .cons (.writeToRam rfl rfl) <|
        .cons (.writeToRam rfl rfl) <| .cons (.copied _ rfl rfl) <| .cons (.jump rfl) .nil
    have hfirst := of_piece (L := (L.fresh param).2) hpiece (ht.level outer param) (by omega) (fun r hr => by
      rcases List.mem_pair.1 hr with rfl | rfl
      · exact Nat.lt_of_lt_of_le (show Label.ramPointer.index < LabelTable.reserved.size by decide) (by omega)
      · rw [hsize]
        exact Nat.lt_succ_self _) rfl
    have hnext : ∀ t' L', (t.level outer param).Extends t' → t'.Grounded → (L.fresh param).2.size ≤ L'.size →
        Couples t' L' site (Builtin.levels inner t.size ⟨L.size⟩ next rest)
          (Builtin.levels inner t.size ⟨L.size⟩ next rest) none (Opens [⟨L.size⟩] t' L') := by
      intro t' L' hext hgrounded hle
      refine ih hgrounded ((hsees.level param).mono hext) (fun name hname => ?_) (by omega)
      simpa [or_left_comm] using hnames name hname
    have hcode := concat_snoc hfirst hnext
    refine hcode.mono ?_
    rintro t' L' xs ys ⟨hext, hgrounded, hle, htwins⟩
    refine ⟨(t.extends_level outer param).trans hext, hgrounded, by omega, htwins.perm ?_⟩
    rw [Label.range_cons (n := L.size) (by omega), hsize]
    rfl

/-- The code of a built-in finds all the names in it. -/
theorem builtin (b : Builtin) {location : Label} {visible : List String} (ht : t.Grounded)
    (hsees : t.Sees ScopeTable.builtins visible) (hself : b.name ∈ visible)
    (hrequires : ∀ c ∈ b.requires, c.name ∈ visible) (hL : LabelTable.reserved.size ≤ L.size) :
    Couples t L site (b.code location) (b.code location) none (Opens [location] t L) := by
  unfold Builtin.code
  split
  · exact of_piece (.items [.labeled (.num 0) location] rfl) ht hL (fun _ h => (nomatch h)) rfl
  · next param rest hparams =>
    obtain ⟨names, hnames, hbody⟩ := Piece.builtinBody b
    refine fresh ?_
    have hsize := size_fresh (L := L) b.name
    refine bind_none (levels hbody ht hsees (fun name hname => ?_) (by omega)) ?_
    · rw [← hparams]
      have := hnames name hname
      simp only [List.mem_append, List.mem_cons, List.mem_map] at this ⊢
      rcases this with h | rfl | ⟨c, hc, rfl⟩
      · exact .inl h
      · exact .inr hself
      · exact .inr (hrequires c hc)
    · rintro t' L' xs ys ⟨hext, hgrounded, hle, htwins⟩
      refine pure ⟨hext, hgrounded, by omega, ?_⟩
      have hhead : Twins [location] L'.size [.labeled (.addr ⟨L.size⟩) location, .word (.addr .builtinScope)]
          [.labeled (.addr ⟨L.size⟩) location, .word (.addr .builtinScope)] := by
        refine .refl [.labeled (.addr ⟨L.size⟩) location, .word (.addr .builtinScope)] (fun r hr => ?_)
          (fun _ h => (nomatch h))
        rcases List.mem_pair.1 hr with rfl | rfl
        · show L.size < L'.size
          omega
        · exact Nat.lt_of_lt_of_le (show Label.builtinScope.index < LabelTable.reserved.size by decide) (by omega)
      refine (hhead.append htwins).perm ?_
      rw [Label.range_cons (n := L.size) (by omega), hsize]
      rfl

/-- The code of built-ins that all see each other. -/
theorem builtinCode {declared : List (Builtin × Label)} {visible : List String} (ht : t.Grounded)
    (hsees : t.Sees ScopeTable.builtins visible)
    (hnames : ∀ x ∈ declared, x.1.name ∈ visible ∧ ∀ c ∈ x.1.requires, c.name ∈ visible)
    (hL : LabelTable.reserved.size ≤ L.size) :
    Couples t L site (Compile.builtinCode declared) (Compile.builtinCode declared) none fun t' L' x x' =>
      Opens (declared.map Prod.snd) t L t' L' (x.flatMap Prod.snd) (x'.flatMap Prod.snd) := by
  induction declared generalizing t L with
  | nil =>
    refine pure ⟨.refl t, ht, Nat.le_refl _, ?_⟩
    rw [Label.range_self]
    exact .nil _
  | cons x declared ih =>
    obtain ⟨b, location⟩ := x
    obtain ⟨⟨hself, hrequires⟩, hnames⟩ := List.forall_mem_cons.1 hnames
    refine bind_none (builtin b ht hsees hself hrequires hL) ?_
    rintro t₁ L₁ xs ys ⟨hext, hgrounded, hle, htwins⟩
    refine bind_none (ih hgrounded (hsees.mono hext) hnames (Nat.le_trans hL hle)) ?_
    rintro t₂ L₂ more more' ⟨hext', hgrounded', hle', htwins'⟩
    exact pure ⟨hext.trans hext', hgrounded', Nat.le_trans hle hle',
      ((htwins.mono hle').append htwins').perm (Piece.perm_append_range [location] _ hle hle')⟩

/-- Every built-in gets the next label. -/
theorem declare (bs : List Builtin) :
    Couples t L site (Compile.declare bs) (Compile.declare bs) none fun t' L' x x' =>
      t' = t.withBuiltins bs ∧ x' = x ∧ L.size ≤ L'.size ∧ x.map Prod.fst = bs ∧
        x.map Prod.snd = Label.range L.size L'.size := by
  induction bs generalizing t L with
  | nil => exact pure ⟨rfl, rfl, Nat.le_refl _, rfl, by rw [Label.range_self]; rfl⟩
  | cons b bs ih =>
    refine bindName (fresh (bind_none ih ?_))
    rintro t' L' x x' ⟨rfl, rfl, hle, hnames, hlabels⟩
    rw [size_fresh] at hle hlabels
    refine pure ⟨rfl, rfl, by omega, by rw [List.map_cons, hnames], ?_⟩
    rw [List.map_cons, hlabels, Label.range_cons (n := L.size) (by omega)]

end Emit.Couples

/-! ## Drafts -/

theorem Program.grounded_of_parse {source : String} {p : Program} (h : parse source = .ok p) : p.scopes.Grounded := by
  obtain ⟨_, as, -, -, rfl⟩ := exists_of_parse h
  exact grounded_ofAssignments as

namespace Builtin

theorem mem_chosen {names : List String} {b : Builtin} :
    b ∈ chosen names ↔ b.name ∈ names ∨ ∃ c : Builtin, c.name ∈ names ∧ b ∈ c.requires := by
  have hall : ∀ b : Builtin, b ∈ all := by
    intro b
    cases b <;> decide
  simp [chosen, hall]

/-- What a chosen built-in requires is chosen: only built-ins that are named themselves require others. -/
theorem mem_chosen_of_mem_requires {names : List String} {b c : Builtin} (hb : b ∈ chosen names)
    (hc : c ∈ b.requires) : c ∈ chosen names := by
  rcases mem_chosen.1 hb with hb | ⟨d, -, hbd⟩
  · exact mem_chosen.2 (.inr ⟨b, hb, hc⟩)
  · rw [requires_of_mem_requires hbd] at hc
    exact nomatch hc

end Builtin

namespace Compile

/-- The account of words in a row, the first of which carries a label. -/
theorem accounts_record {m : Nat} (w : Word) (l : Label) (ws : List Word) (hfolded : ∀ w' ∈ w :: ws, w'.folded = [])
    (hrefs : ∀ r ∈ (w :: ws).flatMap Word.refs, r.index < m) :
    Accounts [l] m (.ofItems (.labeled w l :: ws.map .word)) := by
  have hlabels : Item.labels (ws.map .word) = [] := by
    simp [Item.labels, Item.carried, Item.word, Cell.plain]
  have hmentioned : Item.refs (.labeled w l :: ws.map .word) = (w :: ws).flatMap Word.refs := by
    simp [Item.refs, Item.mentioned, Item.labeled, Item.word, Cell.labeled, Cell.plain, List.flatMap_map]
  have hsummed : Item.folded (.labeled w l :: ws.map .word) = [] := by
    simpa [Item.folded, Item.summed, Item.labeled, Item.word, Cell.labeled, Cell.plain] using hfolded
  have h : Accounts (l :: Item.labels (ws.map .word)) m (.ofItems (.labeled w l :: ws.map .word)) :=
    .ofItems (.labeled w l :: ws.map .word) (by rwa [hmentioned]) (by simp [hsummed])
  rwa [hlabels] at h

/-- The account of a program: of the parts that were written one after the other, the words of the records, and the two
words at the end. -/
theorem accounts_draft {n n₀ n₁ n₂ n₃ n₄ : Nat} {declared : List (Builtin × Label)} (globals : List String)
    (ramBegin : Nat) {S T H A B : Template} (hn : n = LabelTable.reserved.size)
    (hdeclared : declared.map Prod.snd = Label.range n n₀)
    (hstart : Accounts (Label.range n₀ n₁) n₁ S) (hmain : Accounts (Label.range n₁ n₂) n₂ (T ++ H))
    (hallocator : Accounts (.allocateScope :: Label.range n₂ n₃) n₃ A)
    (hbuiltins : Accounts (declared.map Prod.snd ++ Label.range n₃ n₄) n₄ B)
    (h₀ : n ≤ n₀) (h₁ : n₀ ≤ n₁) (h₂ : n₁ ≤ n₂) (h₃ : n₂ ≤ n₃) (h₄ : n₃ ≤ n₄) :
    Accounts (Label.range 0 n₄) n₄ (S ++ T ++ .ofItems halt ++ A ++ B ++
      .ofItems (.labeled (.num 0) .builtinScope :: declared.map (fun (_, l) => .word (.addr l))) ++
      .ofItems (.labeled (.addr .builtinScope) .globalScope :: globals.map (fun _ => .word (.num 0))) ++ H ++
      .ofItems [.labeled (.num ramBegin) .ramPointer, .labeled (.addr .globalScope) .stackBegin]) := by
  have hreserved : ∀ {l : Label}, l.index < LabelTable.reserved.size → l.index < n₄ := fun h => by omega
  have hhalt : Accounts [] n₄ (.ofItems halt) :=
    .ofItems halt (fun _ h => (nomatch h)) (fun _ h => (nomatch h))
  have hbuiltinRecord : Accounts [.builtinScope] n₄
      (.ofItems (.labeled (.num 0) .builtinScope :: declared.map (fun (_, l) => .word (.addr l)))) := by
    have h := accounts_record (m := n₄) (.num 0) .builtinScope (declared.map fun x => .addr x.2) (fun w hw => ?_)
      fun l hl => ?_
    · simpa [Function.comp_def] using h
    · rcases List.mem_cons.1 hw with rfl | hw
      · rfl
      · obtain ⟨x, -, rfl⟩ := List.mem_map.1 hw
        rfl
    · have hl : l ∈ declared.map Prod.snd := by simpa [Word.refs, List.flatMap_map] using hl
      rw [hdeclared] at hl
      exact Nat.lt_of_lt_of_le (Label.mem_range.1 hl).2 (by omega)
  have hglobalRecord : Accounts [.globalScope] n₄
      (.ofItems (.labeled (.addr .builtinScope) .globalScope :: globals.map (fun _ => .word (.num 0)))) := by
    have h := accounts_record (m := n₄) (.addr .builtinScope) .globalScope (globals.map fun _ => .num 0)
      (by simp [Word.folded]) fun l hl => ?_
    · simpa using h
    · obtain rfl : l = .builtinScope := by simpa [Word.refs, List.flatMap_map] using hl
      exact hreserved (by decide)
  have htail : Accounts [.ramPointer, .stackBegin] n₄
      (.ofItems [.labeled (.num ramBegin) .ramPointer, .labeled (.addr .globalScope) .stackBegin]) :=
    (accounts_record (.num ramBegin) .ramPointer [] (by simp [Word.folded]) (by simp [Word.refs])).append
      (accounts_record (.addr .globalScope) .stackBegin [] (by simp [Word.folded])
        (by simpa [Word.refs] using hreserved (l := .globalScope) (by decide)))
  have hparts := (hstart.mono (show n₁ ≤ n₄ by omega)).append <| (hmain.mono (by omega)).append <|
    hhalt.append <| (hallocator.mono (by omega)).append <| hbuiltins.append <|
    (hbuiltinRecord.append hglobalRecord).append htail
  refine (hparts.perm ?_).reorder (Multiset.coe_eq_coe.1 ?_)
  · have hrange : Label.range 0 n =
        [.stackBegin, .ramPointer, .builtinScope, .globalScope, .allocateScope] := by
      rw [hn]
      rfl
    rw [hdeclared, ← Label.range_append (Nat.zero_le n₃) h₄, ← Label.range_append (Nat.zero_le n₂) h₃,
      ← Label.range_append (Nat.zero_le n₁) h₂, ← Label.range_append (Nat.zero_le n₀) h₁,
      ← Label.range_append (Nat.zero_le n) h₀, hrange]
    refine Multiset.coe_eq_coe.1 ?_
    simp only [← Multiset.coe_add, ← Multiset.cons_coe, List.cons_append, ← Multiset.singleton_add,
      Multiset.coe_nil]
    abel
  · simp only [← Multiset.coe_add]
    abel

section

variable {p : Program}

theorem grounded_table (h : p.scopes.Grounded) : (table p).Grounded := by
  unfold table ScopeTable.withBuiltins
  generalize Builtin.chosen p.usedNames = bs
  generalize p.scopes = t at h
  induction bs generalizing t with
  | nil => exact h
  | cons b bs ih => exact ih _ (h.bind _ _)

theorem sees_builtins (h : p.WellScoped) :
    (table p).Sees ScopeTable.builtins ((Builtin.chosen p.usedNames).map Builtin.name) :=
  .outermost (get_table_builtins h) (builtins_lt_table h)

/-- The words of two drafts of a program: instances of one template that carries every label once, and the last word is
not left out. -/
def TwinDrafts (L : LabelTable) (d d' : Draft) : Prop :=
  LabelTable.reserved.size ≤ L.size ∧ Twins (Label.range 0 L.size) L.size d.items d'.items ∧
    ∃ xs xs' c, d.items = xs ++ [.cell c] ∧ d'.items = xs' ++ [.cell c]

/-- Two drafts of a program fail for the first variable that does not resolve, or are twins. -/
theorem couples_draft (h : p.WellScoped) (hgrounded : p.scopes.Grounded) (ramBegin : Nat) :
    Couples p.scopes .reserved ⟨ScopeTable.globals, .generated⟩ (draft p ramBegin) (draft p ramBegin)
      ((table p).missing (Assignment.usesOf ScopeTable.globals p.assignments)) fun _ => TwinDrafts := by
  refine .bind_none (.declare _) ?_
  rintro _ L₀ declared _ ⟨rfl, rfl, hle₀, hnames, hlabels⟩
  have ht : (table p).Grounded := grounded_table hgrounded
  have hstart : Piece Twins ⟨ScopeTable.globals, .generated⟩
      (adjustBase (.offset (.addressOf .stackBegin) (.int 2))) [] [.stackBegin] [] :=
    .plain _ rfl rfl rfl rfl
  refine .bind_none (hstart.couples ht hle₀ fun r hr => ?_) ?_
  · obtain rfl := List.mem_singleton.1 hr
    exact Nat.lt_of_lt_of_le (by decide) hle₀
  rintro _ L₁ start start' ⟨rfl, hle₁, S, hS, hinst, hinst'⟩
  rw [← Option.or_none (o := (table p).missing _)]
  refine .bind ((Piece.assignments _ _ p.assignments).couples ht (by omega) (fun _ h => (nomatch h))) ?_
  rintro _ L₂ main main' ⟨rfl, hle₂, T, H, hTH, hT, hT', hH, hH'⟩
  refine .bind_none (Piece.allocator.couples ht (by omega) (fun _ h => (nomatch h))) ?_
  rintro _ L₃ allocate allocate' ⟨rfl, hle₃, A, hA, hallocate, hallocate'⟩
  refine .bind_none (.builtinCode ht (sees_builtins h) (fun x hx => ?_) (by omega)) ?_
  · have hx : x.1 ∈ Builtin.chosen p.usedNames := by
      rw [← hnames]
      exact List.mem_map_of_mem hx
    exact ⟨List.mem_map_of_mem hx, fun c hc =>
      List.mem_map_of_mem (Builtin.mem_chosen_of_mem_requires hx hc)⟩
  rintro _ L₄ builtins builtins' ⟨-, -, hle₄, B, hB, hbuiltins, hbuiltins'⟩
  have haccount := accounts_draft (p.scopes.get ScopeTable.globals).names ramBegin rfl hlabels hS hTH hA hB hle₀
    hle₁ hle₂ hle₃ hle₄
  have hlast : ∀ (xs : List Item) (c c' : Cell), xs ++ [.cell c, .cell c'] = xs ++ [.cell c] ++ [.cell c'] := by
    simp
  refine .pure ⟨by omega, ⟨_, haccount, ?_, ?_⟩, _, _, _, hlast _ _ _, hlast _ _ _⟩
  · exact (((((((hinst.append hT).append (.ofItems _)).append hallocate).append hbuiltins).append
      (.ofItems _)).append (.ofItems _)).append hH).append (.ofItems _)
  · exact (((((((hinst'.append hT').append (.ofItems _)).append hallocate').append hbuiltins').append
      (.ofItems _)).append (.ofItems _)).append hH').append (.ofItems _)

end

end Compile

end Lamcode
