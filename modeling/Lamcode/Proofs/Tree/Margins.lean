import Lamcode.Proofs.Result
import Lamcode.Proofs.Scope.Threading
import Lamcode.Proofs.Token.Order
import Lamcode.Proofs.Tree.Grammar
import Lamcode.Proofs.Tree.Landmarks

/-!
# Lamcode.Proofs.Tree.Margins — the layout of a program that was read

Indents decide where values and blocks end while a program is read. Here is what this means for the program in the end,
without the readers: a value stays to the right of the margin of its assignment, the atoms of an application do not move
to the left, the clauses of a block are aligned, and a value that does not end with a tuple goes on as far as layout
lets it (`Assignment.KeepsLayout`). The main statement is `Program.keepsLayout_of_parse`.
-/

namespace Lamcode

namespace Expr

/-! ## The nodes of an expression -/

mutual

/-- The expression and all expressions in it. -/
def nodes : Expr Position → List (Expr Position)
  | .number pos n => [.number pos n]
  | .var pos x => [.var pos x]
  | .tuple pos items => .tuple pos items :: nodesOf items
  | .call pos f x => .call pos f x :: (f.nodes ++ x.nodes)
  | .function pos x body => .function pos x body :: body.nodes
  | .group pos inner => .group pos inner :: inner.nodes

def nodesOf : List (Expr Position) → List (Expr Position)
  | [] => []
  | e :: rest => e.nodes ++ nodesOf rest

end

/-- The atoms of an application in source order. -/
def spine : Expr Position → List (Expr Position)
  | .call _ f x => f.spine ++ [x]
  | e => [e]

theorem self_mem_nodes (e : Expr Position) : e ∈ e.nodes := by
  cases e <;> exact .head _

theorem isCall_eq_false {e : Expr Position} (h : ∀ pos f x, e = .call pos f x → False) : e.isCall = false := by
  cases e with
  | call pos f x => exact (h pos f x rfl).elim
  | _ => rfl

theorem spine_of_not_isCall {e : Expr Position} (h : e.isCall = false) : e.spine = [e] := by
  cases e <;> first | rfl | cases h

theorem exists_spine (e : Expr Position) : ∃ xs, e.spine = e.atom :: xs := by
  induction e using spine.induct with
  | case1 pos f x ih =>
    obtain ⟨xs, hxs⟩ := ih
    exact ⟨xs ++ [x], by rw [spine, hxs, atom, List.cons_append]⟩
  | case2 e hcall =>
    replace hcall := isCall_eq_false hcall
    exact ⟨[], by rw [spine_of_not_isCall hcall, atom_of_not_isCall hcall]⟩

theorem Spined.mark_atom {e : Expr Position} (h : e.Spined) : e.atom.mark = e.mark := by
  cases e with
  | call pos f x => exact h.2.1.symm
  | _ => rfl

theorem spine_apply {f : Expr Position} (hf : f.isCall = false) (x : Expr Position) :
    (f.apply x).spine = f :: x.spine := by
  induction x using apply.induct with
  | case1 pos inner last ih => rw [apply, spine, ih, spine, List.cons_append]
  | case2 x hcall =>
    rw [apply, spine, spine_of_not_isCall hf, spine_of_not_isCall (isCall_eq_false hcall), List.singleton_append]
    exact hcall

/-- What is in an application that was turned around: what was in its parts, and the function applied to a part of the
argument that starts as this does. -/
theorem mem_nodes_apply {f x n : Expr Position} (h : n ∈ (f.apply x).nodes) :
    n ∈ f.nodes ∨ n ∈ x.nodes ∨ ∃ y ∈ x.nodes, n = f.apply y ∧ y.atom = x.atom := by
  induction x using apply.induct with
  | case1 pos inner last ih =>
    rw [apply, nodes, List.mem_cons, List.mem_append] at h
    rw [nodes]
    rcases h with rfl | h | h
    · exact .inr (.inr ⟨_, .head _, rfl, rfl⟩)
    · rcases ih h with h | h | ⟨y, hy, rfl, hatom⟩
      · exact .inl h
      · exact .inr (.inl (.tail _ (List.mem_append_left _ h)))
      · exact .inr (.inr ⟨y, .tail _ (List.mem_append_left _ hy), rfl, hatom⟩)
    · exact .inr (.inl (.tail _ (List.mem_append_right _ h)))
  | case2 x hcall =>
    have hself : f.apply x = .call f.mark f x := apply.eq_2 f x hcall
    rw [hself, nodes, List.mem_cons, List.mem_append] at h
    rcases h with rfl | h | h
    · exact .inr (.inr ⟨x, x.self_mem_nodes, hself.symm, rfl⟩)
    · exact .inl h
    · exact .inr (.inl h)

end Expr

namespace Read

/-! ## Expressions inside the margin -/

/-- Where the node stands: it starts with a token, right of the margin if that opens a line, and the atoms of its
application do not move to the left. -/
structure Fits (margin : Nat) (ts : List Lexeme) (n : Expr Position) : Prop where
  starts : ∃ t ∈ ts, t.pos = n.mark
  inside : n.mark.opensLine = true → margin < n.mark.indent
  rising : n.spine.Pairwise fun x y => x.mark.indent ≤ y.mark.indent

section

variable {last : Position} {margin : Nat} {ts us rest : List Lexeme} {e f x : Expr Position}

theorem Fits.mono (h : Fits margin us e) (hsub : us ⊆ ts) : Fits margin ts e where
  starts := by
    obtain ⟨t, ht, hmark⟩ := h.starts
    exact ⟨t, hsub ht, hmark⟩
  inside := h.inside
  rising := h.rising

/-- What starts with the next token fits if the statement does not end there. -/
theorem fits_first {t : Lexeme} (hinside : statementEnds margin (t :: ts) = false) (hmark : e.mark = t.pos)
    (hcall : e.isCall = false) : Fits margin (t :: ts) e where
  starts := ⟨t, .head _, hmark.symm⟩
  inside := by
    intro hopens
    rw [hmark] at hopens ⊢
    simpa [statementEnds, hopens] using hinside
  rising := by
    rw [Expr.spine_of_not_isCall hcall]
    exact List.pairwise_singleton _ _

/-- An expression that starts with the next token fits with all that is in it. -/
theorem fits_around {t : Lexeme} {inner : List (Expr Position)} (hinside : statementEnds margin (t :: ts) = false)
    (hmark : e.mark = t.pos) (hcall : e.isCall = false) (hinner : ∀ n ∈ inner, Fits margin us n) (hsuffix : us <:+ ts) :
    ∀ n ∈ e :: inner, Fits margin (t :: ts) n := by
  refine List.forall_mem_cons.2 ⟨fits_first hinside hmark hcall, fun n hn => (hinner n hn).mono ?_⟩
  exact (hsuffix.trans (List.suffix_cons t ts)).subset

/-- A function whose argument does not stand further left fits with it. -/
theorem fits_apply (hcall : f.isCall = false) (hspined : x.Spined) (hindent : f.mark.indent ≤ x.mark.indent)
    (hf : ∀ n ∈ f.nodes, Fits margin ts n) (hx : ∀ n ∈ x.nodes, Fits margin ts n) :
    ∀ n ∈ (f.apply x).nodes, Fits margin ts n := by
  intro n hn
  rcases Expr.mem_nodes_apply hn with hn | hn | ⟨y, hy, rfl, hatom⟩
  · exact hf n hn
  · exact hx n hn
  · have hself := hf f f.self_mem_nodes
    have hmark : (f.apply y).mark = f.mark := Expr.mark_apply f y
    refine ⟨hmark ▸ hself.starts, hmark ▸ hself.inside, ?_⟩
    -- the spine of the argument starts with its first atom and rises from there
    have hrising := (hx y hy).rising
    obtain ⟨xs, hspine⟩ := y.exists_spine
    rw [Expr.spine_apply hcall, hspine, List.pairwise_cons]
    rw [hspine] at hrising
    refine ⟨fun z hz => ?_, hrising⟩
    have hfirst : f.mark.indent ≤ y.atom.mark.indent := by rwa [hatom, hspined.mark_atom]
    rcases List.mem_cons.1 hz with rfl | hz
    · exact hfirst
    · exact Nat.le_trans hfirst (List.rel_of_pairwise_cons hrising hz)

/-- What is read from the tokens as a value or as the items of a tuple fits. -/
structure AllFit (last : Position) (margin : Nat) (ts : List Lexeme) : Prop where
  value : ∀ {e : Expr Position} {rest : List Lexeme}, outcome (value last margin ts) = some (e, rest) →
    ∀ n ∈ e.nodes, Fits margin ts n
  items : ∀ {es : List (Expr Position)} {rest : List Lexeme}, outcome (items last margin ts) = some (es, rest) →
    ∀ n ∈ Expr.nodesOf es, Fits margin ts n

/-- A value has the position of its first token. -/
theorem mark_of_value (h : outcome (value last margin ts) = some (e, rest)) :
    ∃ t us, ts = t :: us ∧ e.mark = t.pos := by
  have hspelled : Spelled False last margin 0 ts := exists_spells last margin nofun
  obtain ⟨vs, ending, rfl, hspells, -⟩ := hspelled.value h
  obtain ⟨t, us, rfl, -, hmark⟩ := hspells.exists_first
  exact ⟨t, us ++ rest, rfl, hmark⟩

theorem suffix_of_value (h : outcome (value last margin ts) = some (e, rest)) : rest <:+ ts := by
  have hspelled : Spelled False last margin 0 ts := exists_spells last margin nofun
  obtain ⟨vs, ending, rfl, -⟩ := hspelled.value h
  exact List.suffix_append vs rest

theorem suffix_of_callable (h : outcome (callable last margin ts) = some (f, rest)) : rest <:+ ts := by
  have hspelled (us : List Lexeme) : Spelled False last margin 0 us := exists_spells last margin nofun
  obtain ⟨vs, rfl, -⟩ | ⟨x, pos, pos', vs, body, ending, rfl, -⟩ :=
    spells_of_callable nofun (fun us _ _ => hspelled us) h
  · exact List.suffix_append vs rest
  · exact (List.suffix_append vs rest).trans ((List.suffix_cons _ _).trans (List.suffix_cons _ _))

theorem allFit_of_callable (ih : ∀ us : List Lexeme, us.length < ts.length → AllFit last margin us)
    (hinside : statementEnds margin ts = false) (h : outcome (callable last margin ts) = some (f, rest)) :
    ∀ n ∈ f.nodes, Fits margin ts n := by
  cases callableStep_of_outcome h with
  | @function x pos pos' us _ body hbody =>
    have hbody := (ih us (Nat.lt_succ_of_lt (Nat.lt_succ_self _))).value hbody
    exact fits_around hinside rfl rfl hbody (List.suffix_cons _ _)
  | name _ => exact List.forall_mem_singleton.2 (fits_first hinside rfl rfl)
  | number => exact List.forall_mem_singleton.2 (fits_first hinside rfl rfl)
  | @group pos pos' us _ inner hinner =>
    have hinner := (ih us (Nat.lt_succ_self _)).value hinner
    exact fits_around hinside rfl rfl hinner List.suffix_rfl

theorem allFit_of_value (ih : ∀ us : List Lexeme, us.length < ts.length → AllFit last margin us)
    (h : outcome (value last margin ts) = some (e, rest)) : ∀ n ∈ e.nodes, Fits margin ts n := by
  cases valueStep_of_outcome h with
  | unit hinside => exact List.forall_mem_singleton.2 (fits_first hinside rfl rfl)
  | @tuple pos us _ es hinside hitems =>
    have hitems := (ih us (Nat.lt_succ_self _)).items hitems
    exact fits_around hinside rfl rfl hitems List.suffix_rfl
  | @dollar pos us _ inner hinside hinner =>
    have hinner := (ih us (Nat.lt_succ_self _)).value hinner
    exact fits_around hinside rfl rfl hinner List.suffix_rfl
  | alone hinside hcallee _ => exact allFit_of_callable ih hinside hcallee
  | @applied _ us _ f x hinside hcallee hfollows hargument =>
    have hf := allFit_of_callable ih hinside hcallee
    have hx := (ih us (length_lt_of_outcome hcallee)).value hargument
    have hcall := (keeps_of_callable (fun us _ => faithful last margin us) hcallee).2
    obtain ⟨t, us, rfl, hmark⟩ := mark_of_value hargument
    have hindent : f.mark.indent ≤ x.mark.indent := by
      rw [hmark]
      simp only [argumentFollows, Bool.and_eq_true, decide_eq_true_eq] at hfollows
      exact hfollows.1.2
    exact fits_apply hcall ((faithful last margin _).value hargument).2 hindent hf fun n hn =>
      (hx n hn).mono (suffix_of_callable hcallee).subset

theorem allFit_of_items {es : List (Expr Position)}
    (ih : ∀ us : List Lexeme, us.length < ts.length → AllFit last margin us)
    (h : outcome (items last margin ts) = some (es, rest)) : ∀ n ∈ Expr.nodesOf es, Fits margin ts n := by
  cases itemsStep_of_outcome h with
  | @more pos _ us _ e es hitem hothers =>
    have hshorter : us.length < ts.length := Nat.lt_of_succ_lt (length_lt_of_outcome hitem)
    have hothers := (ih us hshorter).items hothers
    refine List.forall_mem_append.2 ⟨allFit_of_value ih hitem, fun n hn => (hothers n hn).mono ?_⟩
    exact ((List.suffix_cons _ _).trans (suffix_of_value hitem)).subset
  | one hitem =>
    rw [Expr.nodesOf, Expr.nodesOf, List.append_nil]
    exact allFit_of_value ih hitem

end

theorem allFit (last : Position) (margin : Nat) (ts : List Lexeme) : AllFit last margin ts :=
  tokens_induction (fun _ ih => ⟨allFit_of_value ih, allFit_of_items ih⟩) ts

end Read

/-! ## Assignments -/

namespace Assignment

mutual

/-- The assignment and all clauses in it. -/
def every : Assignment Position → List (Assignment Position)
  | .mk pos x value clauses => .mk pos x value clauses :: everyOf clauses

def everyOf : List (Assignment Position) → List (Assignment Position)
  | [] => []
  | a :: rest => a.every ++ everyOf rest

end

/-- The clauses of a block: their lines have one indent, and one on the line of the owner is the only one. -/
structure Aligned (owner : Position) (cs : List (Assignment Position)) : Prop where
  indent : ∀ c ∈ cs, ∀ c' ∈ cs, c.mark.indent = c'.mark.indent
  alone : ∀ c ∈ cs, c.mark.line = owner.line → cs = [c]

/-- The tokens end a value whose last atom starts on a line with the indent `column`. -/
inductive EndsValue (margin column : Nat) : List Lexeme → Prop
  | input : EndsValue margin column []
  | semicolon {pos : Position} {rest : List Lexeme} : EndsValue margin column (⟨.semicolon, pos⟩ :: rest)
  | block {pos : Position} {rest : List Lexeme} : EndsValue margin column (⟨.whereMark, pos⟩ :: rest)
  | outside {t : Lexeme} {rest : List Lexeme} (opens : t.pos.opensLine = true) (indent : t.pos.indent ≤ margin) :
    EndsValue margin column (t :: rest)
  | left {t : Lexeme} {rest : List Lexeme} (indent : t.pos.indent < column) : EndsValue margin column (t :: rest)

/-- How an assignment stands in the tokens of its program. -/
structure KeepsLayout (ts : List Lexeme) (a : Assignment Position) : Prop where
  /-- Every expression in the value starts with a token, right of the margin if that opens a line. -/
  inside : ∀ n ∈ a.value.nodes, ∃ t ∈ ts, t.pos = n.mark ∧ ¬(t.pos.opensLine = true ∧ t.pos.indent ≤ a.mark.indent)
  /-- The atoms of an application do not move to the left. -/
  rising : ∀ n ∈ a.value.nodes, n.spine.Pairwise fun x y => x.mark.indent ≤ y.mark.indent
  aligned : Aligned a.mark a.clauses
  /-- If the value does not end with a tuple, then its end has a reason. -/
  ends : ∃ before pos' vs ending rest,
    ts = before ++ ⟨.name a.name, a.mark⟩ :: ⟨.equals, pos'⟩ :: (vs ++ rest) ∧
      Read.SpellsValue False vs a.value ending ∧
      ∀ t ∈ vs.getLast?, t.token ≠ .closeBracket → ∃ start, ending = .atom start ∧
        EndsValue a.mark.indent start.indent rest

theorem KeepsLayout.mono {ts us : List Lexeme} {a : Assignment Position} (h : KeepsLayout us a) (hsuffix : us <:+ ts) :
    KeepsLayout ts a where
  inside n hn := by
    obtain ⟨t, ht, hmark⟩ := h.inside n hn
    exact ⟨t, hsuffix.subset ht, hmark⟩
  rising := h.rising
  aligned := h.aligned
  ends := by
    obtain ⟨before', rfl⟩ := hsuffix
    obtain ⟨before, pos', vs, ending, rest, rfl, hends⟩ := h.ends
    exact ⟨before' ++ before, pos', vs, ending, rest, by rw [List.append_assoc], hends⟩

end Assignment

namespace Read

open Assignment

variable {last owner : Position} {ts us rest : List Lexeme} {a : Assignment Position} {cs : List (Assignment Position)}

/-- The tokens go on with a statement, if at all. -/
def StatementFollows (ts : List Lexeme) : Prop :=
  ∀ t ∈ ts.head?, ∃ x, t.token = .name x

theorem StatementFollows.endsValue {margin column : Nat} (h : StatementFollows rest)
    (hends : argumentFollows margin column rest = false) : EndsValue margin column rest := by
  rcases rest with _ | ⟨t, rest⟩
  · exact .input
  · obtain ⟨x, hx⟩ := h t rfl
    by_cases hleft : t.pos.indent < column
    · exact .left hleft
    · have hstatement : t.pos.opensLine = true ∧ t.pos.indent ≤ margin := by
        simpa [argumentFollows, statementEnds, hx, startsValue, Nat.not_lt.1 hleft] using hends
      exact .outside hstatement.1 hstatement.2

/-- An assignment keeps the layout if its block does and if what ends its value is a reason. -/
theorem keepsLayout_of_value {x : String} {pos pos' : Position} {e : Expr Position}
    (h : outcome (value last pos.indent us) = some (e, rest))
    (hends : ∀ column, argumentFollows pos.indent column rest = false → EndsValue pos.indent column rest)
    (haligned : Aligned pos cs) :
    KeepsLayout (⟨.name x, pos⟩ :: ⟨.equals, pos'⟩ :: us) (.mk pos x e cs) where
  inside n hn := by
    have hfits := (allFit last pos.indent us).value h n hn
    obtain ⟨t, ht, hmark⟩ := hfits.starts
    refine ⟨t, .tail _ (.tail _ ht), hmark, ?_⟩
    rw [hmark]
    rintro ⟨hopens, hindent⟩
    exact Nat.not_lt.2 hindent (hfits.inside hopens)
  rising n hn := ((allFit last pos.indent us).value h n hn).rising
  aligned := haligned
  ends := by
    have hspelled : Spelled False last pos.indent 0 us := exists_spells last pos.indent nofun
    obtain ⟨vs, ending, rfl, hspells, hstops⟩ := hspelled.value h
    refine ⟨[], pos', vs, ending, rest, rfl, hspells, fun t ht hopen => ?_⟩
    obtain ⟨vs, t', rfl, hlast⟩ := hspells.exists_last
    rw [List.getLast?_concat] at ht
    cases ht
    cases ending with
    | tuple whole => exact absurd (hlast.2 rfl) hopen
    | atom start => exact ⟨start, rfl, hends _ (hstops.atom start rfl)⟩

/-- The assignment starts with the first token, and its tokens are taken off. -/
def Starts (ts : List Lexeme) (a : Assignment Position) (rest : List Lexeme) : Prop :=
  ∃ x us, ts = ⟨.name x, a.mark⟩ :: us ∧ rest <:+ us

theorem Starts.suffix (h : Starts ts a rest) : rest <:+ ts := by
  obtain ⟨x, us, rfl, hsuffix⟩ := h
  exact hsuffix.trans (List.suffix_cons _ _)

theorem Starts.statementFollows (h : Starts ts a rest) : StatementFollows ts := by
  obtain ⟨x, us, rfl, -⟩ := h
  rintro _ ⟨⟩
  exact ⟨x, rfl⟩

/-- What is read from the tokens as an assignment or as a block starts with the first of them. -/
structure Taken (last : Position) (ts : List Lexeme) : Prop where
  assignment : ∀ {a : Assignment Position} {rest : List Lexeme}, outcome (assignment last ts) = some (a, rest) →
    Starts ts a rest
  clauses : ∀ {owner : Position} {cs : List (Assignment Position)} {rest : List Lexeme},
    outcome (clauses last owner ts) = some (cs, rest) → ∃ c cs', cs = c :: cs' ∧ Starts ts c rest

/-- What stands behind a value and the mark that ends it. -/
theorem suffix_behind_value {margin : Nat} {e : Expr Position} {mark : Lexeme} (t : Lexeme)
    (h : outcome (value last margin ts) = some (e, mark :: rest)) : rest <:+ t :: ts :=
  ((List.suffix_cons mark rest).trans (suffix_of_value h)).trans (List.suffix_cons t ts)

theorem starts_of_assignment (ih : ∀ us : List Lexeme, us.length < ts.length → Taken last us)
    (h : outcome (assignment last ts) = some (a, rest)) : Starts ts a rest := by
  cases assignmentStep_of_outcome h with
  | @closed x _ _ _ _ _ _ hvalue => exact ⟨x, _, rfl, suffix_behind_value _ hvalue⟩
  | @block x pos pos' _ us vs _ _ cs hvalue hblock =>
    have hbehind : vs <:+ ⟨.equals, pos'⟩ :: us := suffix_behind_value _ hvalue
    obtain ⟨c, cs', -, hstarts⟩ := (ih vs (Nat.lt_succ_of_le hbehind.length_le)).clauses hblock
    exact ⟨x, _, rfl, hstarts.suffix.trans hbehind⟩
  | @plain x _ _ _ _ _ hvalue _ => exact ⟨x, _, rfl, (suffix_of_value hvalue).trans (List.suffix_cons _ _)⟩

theorem starts_of_clauses (ih : ∀ us : List Lexeme, us.length < ts.length → Taken last us)
    (h : outcome (clauses last owner ts) = some (cs, rest)) : ∃ c cs', cs = c :: cs' ∧ Starts ts c rest := by
  cases clausesStep_of_outcome h with
  | @more us _ a cs hclause _ hothers =>
    obtain ⟨x, vs, rfl, hsuffix⟩ := starts_of_assignment ih hclause
    obtain ⟨c, cs', -, hstarts⟩ := (ih us (length_lt_of_outcome hclause)).clauses hothers
    exact ⟨a, cs, rfl, x, vs, rfl, hstarts.suffix.trans hsuffix⟩
  | one hclause _ => exact ⟨_, [], rfl, starts_of_assignment ih hclause⟩

theorem taken (last : Position) (ts : List Lexeme) : Taken last ts :=
  tokens_induction (fun _ ih => ⟨starts_of_assignment ih, starts_of_clauses ih⟩) ts

/-- The tokens come in the order of their lines. -/
def Ordered (ts : List Lexeme) : Prop :=
  ts.Pairwise fun t u => t.pos.line ≤ u.pos.line

/-- Another clause does not undo the alignment: it is on a line of its own and has the indent of the next one. -/
theorem aligned_cons (hline : ∀ t ∈ ts, owner.line ≤ t.pos.line) (hordered : Ordered ts) (hclause : Starts ts a us)
    (hfollows : clauseFollows owner a.mark us = true) {c : Assignment Position} (hnext : Starts us c rest)
    (h : Aligned owner (c :: cs)) : Aligned owner (a :: c :: cs) := by
  obtain ⟨y, ws, rfl, -⟩ := hnext
  obtain ⟨x, vs, rfl, hsuffix⟩ := hclause
  obtain ⟨hapart, hindent⟩ : a.mark.line ≠ owner.line ∧ c.mark.indent = a.mark.indent := by
    simpa [clauseFollows] using hfollows
  have hsame : ∀ d ∈ a :: c :: cs, d.mark.indent = a.mark.indent := by
    refine List.forall_mem_cons.2 ⟨rfl, fun d hd => ?_⟩
    rw [h.indent d hd c (.head _), hindent]
  refine ⟨fun d hd d' hd' => (hsame d hd).trans (hsame d' hd').symm, fun d hd howner => ?_⟩
  rcases List.mem_cons.1 hd with rfl | hd
  · exact absurd howner hapart
  · -- then the clause in front of it would be on that line, too
    cases h.alone d hd howner
    have habove : a.mark.line ≤ c.mark.line := List.rel_of_pairwise_cons hordered (hsuffix.subset (.head _))
    have hbelow : owner.line ≤ a.mark.line := hline _ (.head _)
    omega

/-- What is read from the tokens keeps their layout, if a statement follows or nothing. -/
structure KeepsMargins (last : Position) (ts : List Lexeme) : Prop where
  assignment : ∀ {a : Assignment Position} {rest : List Lexeme}, outcome (assignment last ts) = some (a, rest) →
    StatementFollows rest → ∀ b ∈ a.every, KeepsLayout ts b
  clauses : ∀ {owner : Position} {cs : List (Assignment Position)} {rest : List Lexeme},
    outcome (clauses last owner ts) = some (cs, rest) → StatementFollows rest →
    (∀ t ∈ ts, owner.line ≤ t.pos.line) → Aligned owner cs ∧ ∀ b ∈ everyOf cs, KeepsLayout ts b

theorem aligned_nil : Aligned owner [] :=
  ⟨nofun, nofun⟩

theorem keepsLayout_of_assignment (hordered : Ordered ts)
    (ih : ∀ us : List Lexeme, us.length < ts.length → Ordered us → KeepsMargins last us)
    (h : outcome (assignment last ts) = some (a, rest)) (hrest : StatementFollows rest) :
    ∀ b ∈ a.every, KeepsLayout ts b := by
  cases assignmentStep_of_outcome h with
  | closed hvalue =>
    exact List.forall_mem_singleton.2 (keepsLayout_of_value hvalue (fun _ _ => .semicolon) aligned_nil)
  | @block x pos pos' _ us vs _ e cs hvalue hblock =>
    have hbehind : vs <:+ ⟨.equals, pos'⟩ :: us := suffix_behind_value _ hvalue
    have hvs : vs <:+ ⟨.name x, pos⟩ :: ⟨.equals, pos'⟩ :: us := hbehind.trans (List.suffix_cons _ _)
    have hshorter := Nat.lt_succ_of_le hbehind.length_le
    have hline : ∀ u ∈ vs, pos.line ≤ u.pos.line := fun u hu =>
      List.rel_of_pairwise_cons hordered (hbehind.subset hu)
    obtain ⟨haligned, hcs⟩ := (ih vs hshorter (hordered.sublist hvs.sublist)).clauses hblock hrest hline
    exact List.forall_mem_cons.2 ⟨keepsLayout_of_value hvalue (fun _ _ => .block) haligned, fun b hb =>
      (hcs b hb).mono hvs⟩
  | plain hvalue _ =>
    exact List.forall_mem_singleton.2 (keepsLayout_of_value hvalue (fun _ => hrest.endsValue) aligned_nil)

theorem keepsLayout_of_clauses (hordered : Ordered ts)
    (ih : ∀ us : List Lexeme, us.length < ts.length → Ordered us → KeepsMargins last us)
    (h : outcome (clauses last owner ts) = some (cs, rest)) (hrest : StatementFollows rest)
    (hline : ∀ t ∈ ts, owner.line ≤ t.pos.line) : Aligned owner cs ∧ ∀ b ∈ everyOf cs, KeepsLayout ts b := by
  cases clausesStep_of_outcome h with
  | @more us _ a cs hclause hfollows hothers =>
    have hstarts := (taken last ts).assignment hclause
    have hus := hstarts.suffix
    obtain ⟨haligned, hcs⟩ := (ih us (length_lt_of_outcome hclause) (hordered.sublist hus.sublist)).clauses hothers
      hrest fun t ht => hline t (hus.subset ht)
    obtain ⟨c, cs, rfl, hnext⟩ := (taken last us).clauses hothers
    refine ⟨aligned_cons hline hordered hstarts hfollows hnext haligned, List.forall_mem_append.2 ⟨?_, ?_⟩⟩
    · exact keepsLayout_of_assignment hordered ih hclause hnext.statementFollows
    · exact fun b hb => (hcs b hb).mono hus
  | one hclause _ =>
    refine ⟨⟨?_, ?_⟩, ?_⟩
    · simp
    · simp
    · rw [everyOf, everyOf, List.append_nil]
      exact keepsLayout_of_assignment hordered ih hclause hrest

theorem keepsMargins (last : Position) {ts : List Lexeme} (hordered : Ordered ts) : KeepsMargins last ts :=
  tokens_induction (P := fun ts => Ordered ts → KeepsMargins last ts)
    (fun _ ih hordered => ⟨keepsLayout_of_assignment hordered ih, keepsLayout_of_clauses hordered ih⟩) ts hordered

theorem keepsLayout_of_assignments {as : List (Assignment Position)} (hordered : Ordered ts)
    (h : assignments last ts = .ok as) : StatementFollows ts ∧ ∀ a ∈ everyOf as, KeepsLayout ts a := by
  replace h : outcomeAll (assignments last ts) = some (as, []) := by
    rw [h]
    rfl
  induction ts using tokens_induction generalizing as with
  | step ts ih =>
    rcases ts with _ | ⟨t, ts⟩
    · rw [outcomeAll_assignments_nil] at h
      cases h
      exact ⟨nofun, nofun⟩
    · rw [outcomeAll_assignments_cons] at h
      obtain ⟨⟨a, us⟩, hassignment, h⟩ := Option.bind_eq_some_iff.1 h
      obtain ⟨⟨more, _⟩, hmore, ⟨⟩⟩ := Option.bind_eq_some_iff.1 h
      have hstarts := (taken last _).assignment hassignment
      have hus := hstarts.suffix
      obtain ⟨hfollows, hothers⟩ := ih _ (length_lt_of_outcome hassignment) (hordered.sublist hus.sublist) hmore
      refine ⟨hstarts.statementFollows, List.forall_mem_append.2 ⟨?_, fun b hb => (hothers b hb).mono hus⟩⟩
      exact (keepsMargins last hordered).assignment hassignment hfollows

end Read

namespace Program

/-- A program that was parsed keeps the layout of its source: every assignment in it, the clauses of all blocks
included. -/
theorem keepsLayout_of_parse {source : String} {p : Program} (h : parse source = .ok p) :
    ∃ ts as, Scan.tokens source = .ok ts ∧ Read.program ts = .ok as ∧ p = .ofAssignments as ∧
      ∀ a ∈ Assignment.everyOf as, a.KeepsLayout ts := by
  obtain ⟨ts, as, hscan, hread, hp⟩ := exists_of_parse h
  exact ⟨ts, as, hscan, hread, hp, (Read.keepsLayout_of_assignments (Scan.pairwise_line hscan) hread).2⟩

/-- Arguments and items on lines of their own, two clauses on one line, and a clause on the line of its owner. -/
def staircase : String :=
  "f = g\n    (h 1\n      2) $\n    [x, k\n      z] where\n  g = 3; h = y =>\n    y\n  k = x where x = 1\nz = f f\n  f"

theorem keepsLayout_staircase :
    ∃ ts as, Scan.tokens staircase = .ok ts ∧ Read.program ts = .ok as ∧
      ((Assignment.everyOf as).map fun a => (a.name, a.mark.line, a.mark.indent)) =
        [("f", 1, 0), ("g", 6, 2), ("h", 6, 2), ("k", 8, 2), ("x", 8, 2), ("z", 9, 0)] ∧
      ∀ a ∈ Assignment.everyOf as, a.KeepsLayout ts := by
  have h : (Scan.tokens staircase).toOption.any (fun ts => (Read.program ts).toOption.any fun as =>
      decide (((Assignment.everyOf as).map fun a => (a.name, a.mark.line, a.mark.indent)) =
        [("f", 1, 0), ("g", 6, 2), ("h", 6, 2), ("k", 8, 2), ("x", 8, 2), ("z", 9, 0)])) = true := by
    decide +kernel
  obtain ⟨ts, hscan, h⟩ := exists_ok_of_any h
  obtain ⟨as, hread, hmarks⟩ := exists_ok_of_any h
  have hparse : parse staircase = .ok (.ofAssignments as) := by simp only [parse_eq, hscan, hread]
  obtain ⟨ts', as', hscan', hread', -, hlayout⟩ := keepsLayout_of_parse hparse
  cases hscan.symm.trans hscan'
  cases hread.symm.trans hread'
  exact ⟨ts, as, hscan, hread, of_decide_eq_true hmarks, hlayout⟩

end Program

end Lamcode
