import Lamcode.Proofs.Tree.Layout
import Lamcode.Proofs.Tree.Outcome

/-!
# Lamcode.Proofs.Tree.Reading — reading back the tokens of a printed tree

A printed tree is read back but for its groups and its marks, unless some call in it calls a tuple: a tuple takes no
argument, so that the parenthesis in front of such a call is not closed where the reader wants it closed.
`Expr.Readable` and `Assignment.Readable` say what the readers do with the tokens of a tree, with one lemma for each
kind of tree.
-/

namespace Lamcode

variable {α β : Type}

/-! ## What the printed form keeps -/

namespace Expr

mutual

/-- The tree without its groups and its marks. -/
def bare : Expr α → Expr Unit
  | .number _ value => .number () value
  | .var _ name => .var () name
  | .tuple _ items => .tuple () (bareOf items)
  | .call _ f x => .call () f.bare x.bare
  | .function _ param body => .function () param body.bare
  | .group _ inner => inner.bare

/-- The trees without their groups and their marks. -/
def bareOf : List (Expr α) → List (Expr Unit)
  | [] => []
  | e :: rest => e.bare :: bareOf rest

end

/-- Whether the tree is a tuple, once the groups around it are taken off. -/
def isTuple : Expr α → Bool
  | .tuple _ _ => true
  | .group _ inner => inner.isTuple
  | _ => false

mutual

/-- Whether no call in the tree calls a tuple. -/
def callsNoTuple : Expr α → Bool
  | .number _ _ => true
  | .var _ _ => true
  | .tuple _ items => callNoTuple items
  | .call _ f x => !f.isTuple && (f.callsNoTuple && x.callsNoTuple)
  | .function _ _ body => body.callsNoTuple
  | .group _ inner => inner.callsNoTuple

/-- Whether no call in the trees calls a tuple. -/
def callNoTuple : List (Expr α) → Bool
  | [] => true
  | e :: rest => e.callsNoTuple && callNoTuple rest

end

end Expr

namespace Assignment

mutual

/-- The tree without its groups and its marks. -/
def bare : Assignment α β → Assignment Unit
  | .mk _ name value clauses => .mk () name value.bare (bareOf clauses)

/-- The trees without their groups and their marks. -/
def bareOf : List (Assignment α β) → List (Assignment Unit)
  | [] => []
  | a :: rest => a.bare :: bareOf rest

end

mutual

/-- Whether no call in the tree calls a tuple. -/
def callsNoTuple : Assignment α β → Bool
  | .mk _ _ value clauses => value.callsNoTuple && callNoTuple clauses

/-- Whether no call in the trees calls a tuple. -/
def callNoTuple : List (Assignment α β) → Bool
  | [] => true
  | a :: rest => a.callsNoTuple && callNoTuple rest

end

end Assignment

/-! ## Reading an expression -/

namespace Read

/-- What follows an expression cannot go on with it. -/
structure Stops (margin : Nat) (rest : List Lexeme) : Prop where
  argument : argumentFollows margin margin rest = false
  arrow : ∀ t ∈ rest.head?, t.token ≠ .arrow

theorem stops_cons {margin : Nat} (t : Token) {pos : Position} {ts : List Lexeme} (h : startsValue t = false)
    (h' : t ≠ .arrow) : Stops margin (⟨t, pos⟩ :: ts) where
  argument := by simp [argumentFollows, h]
  arrow := by simpa using h'

theorem statementEnds_of_opensLine {margin : Nat} {t : Token} {pos : Position} {ts : List Lexeme}
    (h : pos.opensLine = false) : statementEnds margin (⟨t, pos⟩ :: ts) = false := by
  simp [statementEnds, h]

end Read

open Read

namespace Expr

/-- The tree is the same but for groups and marks, it starts on a line with the indent, and as an argument it is taken
whole. -/
structure Copy (indent : Nat) (e : Expr α) (e' : Expr Position) : Prop where
  bare : e'.bare = e.bare
  indent : e'.mark.indent = indent
  whole : ∀ f : Expr Position, f.apply e' = .call f.mark f e'

/-- The tokens of the expression, on a line behind its first one, are read back from whatever text they stand in: by
themselves if it is a tuple, and otherwise as something that can be applied. -/
structure Readable (last : Position) (line margin : Nat) (e : Expr α) : Prop where
  tuple : e.isTuple = true → ∀ {ls rest : List Lexeme}, Follows line margin e.tokens ls →
    Reads (Copy margin e) rest e.callsNoTuple (outcome (Read.value last margin (ls ++ rest)))
  callable : e.isTuple = false → ∀ {ls rest : List Lexeme}, Follows line margin e.tokens ls →
    (∀ t ∈ rest.head?, t.token ≠ .arrow) →
    Reads (Copy margin e) rest e.callsNoTuple (outcome (Read.callable last margin (ls ++ rest)))

theorem exists_tokens_eq_cons : ∀ e : Expr α, ∃ t ts, e.tokens = t :: ts ∧
    if e.isTuple then t = .openBracket else startsCallable t = true
  | .number _ _ => by
    rw [tokens]
    exact ⟨_, _, rfl, rfl⟩
  | .var _ _ => by
    rw [tokens]
    exact ⟨_, _, rfl, rfl⟩
  | .tuple _ _ => by
    rw [tokens]
    exact ⟨_, _, rfl, rfl⟩
  | .call _ _ _ => by
    rw [tokens]
    exact ⟨_, _, rfl, rfl⟩
  | .function _ _ _ => by
    rw [tokens]
    exact ⟨_, _, rfl, rfl⟩
  | .group _ inner => by
    rw [tokens, isTuple]
    exact exists_tokens_eq_cons inner

/-- The first token of an expression. -/
theorem exists_first (e : Expr α) {line margin : Nat} {ls : List Lexeme} (h : Follows line margin e.tokens ls) :
    ∃ t pos ls', ls = ⟨t, pos⟩ :: ls' ∧ pos.indent = margin ∧ pos.opensLine = false ∧ startsValue t = true ∧
      (e.isTuple = false → startsCallable t = true) := by
  obtain ⟨t, ts, htokens, ht⟩ := e.exists_tokens_eq_cons
  rw [htokens] at h
  obtain ⟨pos, ls', rfl, hindent, hopens, -⟩ := h.exists_cons
  refine ⟨t, pos, ls', rfl, hindent, hopens, ?_⟩
  cases htuple : e.isTuple with
  | true =>
    rw [htuple] at ht
    subst ht
    exact ⟨rfl, nofun⟩
  | false =>
    rw [htuple] at ht
    refine ⟨?_, fun _ => ht⟩
    revert ht
    cases t <;> first | exact fun _ => rfl | exact nofun

theorem exists_tokensOf_eq_append (e : Expr α) (es : List (Expr α)) : ∃ us, tokensOf (e :: es) = e.tokens ++ us := by
  cases es with
  | nil => exact ⟨[], by rw [tokensOf, List.append_nil]⟩
  | cons e₁ es => exact ⟨_, by rw [tokensOf]; exact List.cons_ne_nil _ _⟩

namespace Readable

variable {last : Position} {line margin : Nat} {mark : α} {ls rest : List Lexeme}

/-- An expression is read back as a value where what follows cannot go on with it. -/
theorem value {e : Expr α} (h : e.Readable last line margin) (hls : Follows line margin e.tokens ls)
    (hrest : Stops margin rest) :
    Reads (Copy margin e) rest e.callsNoTuple (outcome (Read.value last margin (ls ++ rest))) := by
  cases htuple : e.isTuple with
  | true => exact h.tuple htuple hls
  | false =>
    have hcallable := h.callable htuple hls hrest.arrow
    obtain ⟨t, pos, ls', rfl, -, hopens, -, hstarts⟩ := e.exists_first hls
    rw [List.cons_append, outcome_value_callable (hstarts htuple) (statementEnds_of_opensLine hopens)]
    refine hcallable.andThen fun c hc => ?_
    rw [hc.indent, hrest.argument]
    exact .some hc

/-- An expression in parentheses. -/
theorem group_of_value {e : Expr α} {good : Bool} {pos : Position} (hpos : pos.indent = margin) (pos' : Position)
    (h : Reads (fun e' : Expr Position => e'.bare = e.bare) (⟨.closeParen, pos'⟩ :: rest) good
      (outcome (Read.value last margin ls))) :
    Reads (Copy margin e) rest good (outcome (Read.callable last margin (⟨.openParen, pos⟩ :: ls))) := by
  rw [outcome_callable_group]
  refine h.andThen fun e' he' => ?_
  exact .some ⟨he', hpos, fun _ => rfl⟩

theorem number (value : Int) : (Expr.number mark value).Readable last line margin where
  tuple := nofun
  callable _ _ _ hls _ := by
    obtain ⟨pos, rfl, hindent⟩ := hls.exists_singleton
    rw [List.singleton_append, outcome_callable_number]
    exact .some ⟨rfl, hindent, fun _ => rfl⟩

theorem var (name : String) : (Expr.var mark name).Readable last line margin where
  tuple := nofun
  callable _ _ _ hls hrest := by
    obtain ⟨pos, rfl, hindent⟩ := hls.exists_singleton
    rw [List.singleton_append, outcome_callable_name hrest]
    exact .some ⟨rfl, hindent, fun _ => rfl⟩

theorem group {e : Expr α} (h : e.Readable last line margin) : (Expr.group mark e).Readable last line margin where
  tuple htuple _ _ hls := (h.tuple htuple hls).imp fun _ he => ⟨he.bare, he.indent, he.whole⟩
  callable htuple _ _ hls hrest := (h.callable htuple hls hrest).imp fun _ he => ⟨he.bare, he.indent, he.whole⟩

theorem function (param : String) {body : Expr α} (h : body.Readable last line margin) :
    (Expr.function mark param body).Readable last line margin where
  tuple := nofun
  callable _ _ rest hls _ := by
    rw [tokens] at hls
    obtain ⟨pos, _, rfl, hpos, -, hls⟩ := hls.exists_cons
    obtain ⟨pos₁, _, rfl, -, hopens, hls⟩ := hls.exists_cons
    obtain ⟨_, _, rfl, -, -, hls⟩ := hls.exists_cons
    obtain ⟨ls, _, rfl, hbody, hls⟩ := hls.exists_append
    obtain ⟨pos', rfl, -⟩ := hls.exists_singleton
    have hstops : Stops margin (⟨.closeParen, pos'⟩ :: rest) := stops_cons .closeParen rfl nofun
    rw [List.cons_append, List.cons_append, List.cons_append, List.append_assoc, List.singleton_append]
    apply group_of_value hpos pos'
    rw [outcome_value_callable rfl (statementEnds_of_opensLine hopens), outcome_callable_function]
    have hread : Reads (fun c : Expr Position => c.bare = (Expr.function mark param body).bare)
        (⟨.closeParen, pos'⟩ :: rest) body.callsNoTuple
        ((outcome (Read.value last margin (ls ++ ⟨.closeParen, pos'⟩ :: rest))).bind fun r =>
          some (.function pos₁ param r.1, r.2)) := by
      refine (h.value hbody hstops).andThen fun body' hbody' => ?_
      exact .some (by rw [Expr.bare, hbody'.bare, Expr.bare])
    -- A parenthesis is no argument, so the function is not applied to anything.
    exact hread.andThen fun c hc => .some hc

theorem call {f x : Expr α} (hf : f.Readable last line margin) (hx : x.Readable last line margin) :
    (Expr.call mark f x).Readable last line margin where
  tuple := nofun
  callable _ _ rest hls _ := by
    rw [tokens] at hls
    obtain ⟨pos, _, rfl, hpos, -, hls⟩ := hls.exists_cons
    obtain ⟨fs, _, rfl, hfs, hls⟩ := hls.exists_append
    obtain ⟨xs, _, rfl, hxs, hls⟩ := hls.exists_append
    obtain ⟨pos', rfl, -⟩ := hls.exists_singleton
    have hstops : Stops margin (⟨.closeParen, pos'⟩ :: rest) := stops_cons .closeParen rfl nofun
    have hargument := hx.value hxs hstops
    obtain ⟨t, post, xs, rfl, hindent, hopens, hstarts, -⟩ := x.exists_first hxs
    rw [List.cons_append, List.append_assoc, List.append_assoc, List.singleton_append]
    rw [callsNoTuple]
    cases htuple : f.isTuple with
    | true =>
      -- The tuple is read by itself, and what stands behind it is no parenthesis.
      rw [outcome_callable_group]
      refine (hf.tuple htuple hfs).fails fun f' _ => ?_
      cases t <;> first | rfl | cases hstarts
    | false =>
      apply group_of_value hpos pos'
      have harrow : ∀ l ∈ (⟨t, post⟩ :: xs ++ ⟨.closeParen, pos'⟩ :: rest : List Lexeme).head?, l.token ≠ .arrow := by
        rintro _ ⟨⟩ rfl
        cases hstarts
      have hcallable := hf.callable htuple hfs harrow
      obtain ⟨t', _, fs, rfl, -, hopens', -, hstarts'⟩ := f.exists_first hfs
      rw [List.cons_append, outcome_value_callable (hstarts' htuple) (statementEnds_of_opensLine hopens')]
      refine hcallable.bind fun f' hf' => ?_
      have hfollows :
          argumentFollows margin f'.mark.indent (⟨t, post⟩ :: xs ++ ⟨.closeParen, pos'⟩ :: rest) = true := by
        simp [argumentFollows, hstarts, hf'.indent, hindent, statementEnds, hopens]
      rw [hfollows]
      refine hargument.andThen fun x' hx' => ?_
      -- Were the argument a bare call, the function would become a part of it; but it is in a group.
      rw [hx'.whole]
      exact .some (by rw [Expr.bare, hf'.bare, hx'.bare, Expr.bare])

/-- The items of a tuple and the bracket behind them. -/
theorem items (pos : Position) : ∀ {es : List (Expr α)} {ls : List Lexeme}, es ≠ [] →
    (∀ e ∈ es, e.Readable last line margin) → Follows line margin (tokensOf es) ls →
    Reads (fun es' : List (Expr Position) => bareOf es' = bareOf es) rest (callNoTuple es)
      (outcome (Read.items last margin (ls ++ ⟨.closeBracket, pos⟩ :: rest)))
  | [], _, hne, _, _ => absurd rfl hne
  | [e], _, _, h, hls => by
    rw [tokensOf] at hls
    rw [outcome_items]
    refine ((h e List.mem_cons_self).value hls (stops_cons .closeBracket rfl nofun)).bind fun e' he' => ?_
    exact .some (congrArg (fun e => [e]) he'.bare)
  | e :: e₁ :: es, _, _, h, hls => by
    rw [tokensOf] at hls
    · obtain ⟨ls₁, _, rfl, hls₁, hls⟩ := hls.exists_append
      obtain ⟨pos', ls₂, rfl, -, -, hls₂⟩ := hls.exists_cons
      have hmore := items pos (List.cons_ne_nil e₁ es) (fun e he => h e (List.mem_cons_of_mem _ he)) hls₂
      rw [List.append_assoc, List.cons_append, outcome_items]
      refine ((h e List.mem_cons_self).value hls₁ (stops_cons .comma rfl nofun)).bind fun e' he' => ?_
      refine hmore.andThen fun more hmore => ?_
      exact .some (congr (congrArg List.cons he'.bare) hmore)
    · exact List.cons_ne_nil _ _

theorem tupleOf {es : List (Expr α)} (h : ∀ e ∈ es, e.Readable last line margin) :
    (Expr.tuple mark es).Readable last line margin where
  callable := nofun
  tuple _ _ _ hls := by
    rw [tokens] at hls
    obtain ⟨pos, _, rfl, hindent, hopens, hls⟩ := hls.exists_cons
    obtain ⟨ls, _, rfl, hes, hls⟩ := hls.exists_append
    obtain ⟨pos', rfl, -⟩ := hls.exists_singleton
    rw [List.cons_append, List.append_assoc, List.singleton_append]
    cases es with
    | nil =>
      cases List.map_eq_nil_iff.1 hes.tokens
      rw [List.nil_append, outcome_value_nil (statementEnds_of_opensLine hopens)]
      exact .some ⟨rfl, hindent, fun _ => rfl⟩
    | cons e es =>
      -- The bracket is not closed at once: the first item stands behind it.
      obtain ⟨us, hus⟩ := exists_tokensOf_eq_append e es
      have hfirst := hes
      rw [hus] at hfirst
      obtain ⟨ls₁, ls₂, rfl, hls₁, -⟩ := hfirst.exists_append
      obtain ⟨t, post, ls₁, rfl, -, -, hstarts, -⟩ := e.exists_first hls₁
      rw [outcome_value_tuple (statementEnds_of_opensLine hopens) ?_]
      · refine (items pos' (List.cons_ne_nil e es) h hes).andThen fun es' hes' => ?_
        exact .some ⟨by rw [Expr.bare, hes', Expr.bare], hindent, fun _ => rfl⟩
      · rintro _ ⟨⟩ rfl
        cases hstarts

end Readable

mutual

/-- Every expression is read back. -/
theorem readable (last : Position) (line margin : Nat) : ∀ e : Expr α, e.Readable last line margin
  | .number _ value => .number value
  | .var _ name => .var name
  | .tuple _ items => .tupleOf (readable_of_mem last line margin items)
  | .call _ f x => .call (readable last line margin f) (readable last line margin x)
  | .function _ param body => .function param (readable last line margin body)
  | .group _ inner => .group (readable last line margin inner)

theorem readable_of_mem (last : Position) (line margin : Nat) :
    ∀ es : List (Expr α), ∀ e ∈ es, e.Readable last line margin
  | [] => nofun
  | e :: es => List.forall_mem_cons.2 ⟨readable last line margin e, readable_of_mem last line margin es⟩

end

end Expr

/-! ## Reading an assignment -/

namespace Read

/-- The tokens end or go on with a name that opens a line with at most the indent. -/
def Below (indent : Nat) : List Lexeme → Prop
  | [] => True
  | t :: _ => (∃ x, t.token = .name x) ∧ t.pos.opensLine = true ∧ t.pos.indent ≤ indent

namespace Below

variable {margin : Nat} {rest : List Lexeme}

theorem mono {margin' : Nat} (h : Below margin rest) (hle : margin ≤ margin') : Below margin' rest := by
  cases rest with
  | nil => trivial
  | cons t rest => exact ⟨h.1, h.2.1, Nat.le_trans h.2.2 hle⟩

theorem stops (h : Below margin rest) : Stops margin rest := by
  cases rest with
  | nil => exact ⟨rfl, by simp⟩
  | cons t rest =>
    obtain ⟨⟨x, hx⟩, hopens, hindent⟩ := h
    exact ⟨by simp [argumentFollows, statementEnds, hopens, hindent], by simp [hx]⟩

end Below

end Read

namespace Assignment

/-- The tree is the same but for groups and marks, and it starts on the line, which has the indent. -/
structure Copy (line indent : Nat) (a : Assignment α β) (a' : Assignment Position) : Prop where
  bare : a'.bare = a.bare
  line : a'.mark.line = line
  indent : a'.mark.indent = indent

/-- The lines of the assignment are read back in front of a statement that does not belong to it. -/
def Readable (last : Position) (depth : Nat) (a : Assignment α β) : Prop :=
  ∀ ⦃line : Nat⦄ ⦃ls rest : List Lexeme⦄, Rows line (a.rows depth) ls → Below (2 * depth) rest →
    Reads (Copy line (2 * depth) a) rest a.callsNoTuple (outcome (Read.assignment last (ls ++ rest)))

/-- Assignments start with a name, on a line of its own. -/
theorem exists_first {depth line : Nat} {a : Assignment α β} {as : List (Assignment α β)} {ls : List Lexeme}
    (h : Rows line (a.rows depth ++ rowsAll depth as) ls) :
    ∃ x column ls', ls = ⟨.name x, ⟨line, column, 2 * depth, true⟩⟩ :: ls' := by
  obtain ⟨mark, name, value, clauses⟩ := a
  cases clauses with
  | nil =>
    rw [rows] at h
    cases h with
    | cons column _ _ => exact ⟨name, column, _, rfl⟩
  | cons c cs =>
    rw [rows] at h
    cases h with
    | cons column _ _ => exact ⟨name, column, _, rfl⟩

namespace Readable

variable {last : Position} {depth line : Nat} {ls rest : List Lexeme}

/-- The clauses of a block are read back where the statement that follows stands left of them. -/
theorem clauses {owner : Position} {margin : Nat} (hmargin : margin < 2 * depth) (hrest : Below margin rest) :
    ∀ {c : Assignment α β} {cs : List (Assignment α β)} {line : Nat} {ls : List Lexeme}, owner.line < line →
    (∀ a ∈ c :: cs, a.Readable last depth) → Rows line (rowsAll depth (c :: cs)) ls →
    Reads (fun cs' : List (Assignment Position) => bareOf cs' = bareOf (c :: cs)) rest (callNoTuple (c :: cs))
      (outcome (Read.clauses last owner (ls ++ rest)))
  | c, [], line, ls, hline, h, hls => by
    rw [rowsAll, rowsAll, List.append_nil] at hls
    rw [outcome_clauses]
    refine (h c List.mem_cons_self hls (hrest.mono (by omega))).bind fun c' hc' => ?_
    -- What follows stands left of the clauses, so the block ends here.
    have hends : clauseFollows owner c'.mark rest = false := by
      cases rest with
      | nil => rfl
      | cons t rest =>
        have hle := hrest.2.2
        have hne : t.pos.indent ≠ 2 * depth := by omega
        simp [clauseFollows, hc'.indent, hne]
    rw [hends]
    exact .some (congrArg (fun c => [c]) hc'.bare)
  | c, c₁ :: cs, line, ls, hline, h, hls => by
    rw [rowsAll] at hls
    obtain ⟨ls₁, ls₂, rfl, hls₁, hls₂⟩ := hls.append_inv
    have hline' : owner.line < line + (c.rows depth).length := by omega
    have hmore := clauses hmargin hrest hline' (fun a ha => h a (List.mem_cons_of_mem _ ha)) hls₂
    rw [rowsAll] at hls₂
    obtain ⟨x, column, ls₂, rfl⟩ := exists_first hls₂
    have hbelow : Below (2 * depth)
        (⟨.name x, ⟨line + (c.rows depth).length, column, 2 * depth, true⟩⟩ :: ls₂ ++ rest) :=
      ⟨⟨x, rfl⟩, rfl, Nat.le_refl _⟩
    rw [List.append_assoc, outcome_clauses]
    refine (h c List.mem_cons_self hls₁ hbelow).bind fun c' hc' => ?_
    -- The clause has a line of its own, and the next one is on a line with the same indent.
    have hne : c'.mark.line ≠ owner.line := by
      rw [hc'.line]
      omega
    rw [if_pos (by simp [clauseFollows, hc'.indent, hne])]
    refine hmore.andThen fun more hmore => ?_
    exact .some (congr (congrArg List.cons hc'.bare) hmore)

theorem ofClauses (mark : β) (name : String) (value : Expr α) {cs : List (Assignment α β)}
    (h : ∀ a ∈ cs, a.Readable last (depth + 2)) : (Assignment.mk mark name value cs).Readable last depth := by
  intro line ls rest hls hrest
  have hvalue := value.readable last line (2 * depth)
  cases cs with
  | nil =>
    rw [rows] at hls
    cases hls with
    | cons column hheader hls =>
      cases hls
      obtain ⟨pos', vs, rfl, -, -, hvs⟩ := hheader.exists_cons
      rw [List.append_nil, List.cons_append, List.cons_append, outcome_assignment]
      refine (hvalue.value hvs hrest.stops).bind fun v hv => ?_
      have hcopy : Copy line (2 * depth) (mk mark name value []) (mk ⟨line, column, 2 * depth, true⟩ name v []) :=
        ⟨by rw [Assignment.bare, hv.bare]; rfl, rfl, rfl⟩
      -- What follows is neither a semicolon nor a block.
      rcases rest with _ | ⟨⟨t, pos⟩, rest⟩
      · exact .some hcopy
      · obtain ⟨⟨x, rfl⟩, -⟩ := hrest
        exact .some hcopy
  | cons c cs =>
    rw [rows] at hls
    cases hls with
    | cons column hheader hls =>
      cases hls with
      | cons column' hwhere hls =>
        -- Behind the mark of the block nothing stands on its line; the clauses start on the line below.
        cases List.map_eq_nil_iff.1 hwhere.tokens
        obtain ⟨pos', vs, rfl, -, -, hvs⟩ := hheader.exists_cons
        have hline : (⟨line, column, 2 * depth, true⟩ : Position).line < line + 1 + 1 := by
          dsimp only
          omega
        have hblock := clauses (by omega) hrest hline h hls
        rw [List.nil_append, List.cons_append, List.cons_append, List.cons_append, List.append_assoc, List.cons_append,
          outcome_assignment]
        refine (hvalue.value hvs (stops_cons .whereMark rfl nofun)).bind fun v hv => ?_
        refine hblock.andThen fun cs' hcs' => ?_
        exact .some ⟨by rw [Assignment.bare, hv.bare, hcs', Assignment.bare], rfl, rfl⟩

end Readable

mutual

/-- Every assignment is read back. -/
theorem readable (last : Position) : ∀ (depth : Nat) (a : Assignment α β), a.Readable last depth
  | depth, .mk mark name value clauses => Readable.ofClauses mark name value (readable_of_mem last (depth + 2) clauses)

theorem readable_of_mem (last : Position) : ∀ (depth : Nat) (as : List (Assignment α β)),
    ∀ a ∈ as, a.Readable last depth
  | _, [] => nofun
  | depth, a :: as => List.forall_mem_cons.2 ⟨readable last depth a, readable_of_mem last depth as⟩

end

/-- Assignments at the left margin are read back to the end. -/
theorem reads_assignments (last : Position) : ∀ {as : List (Assignment α β)} {line : Nat} {ls : List Lexeme},
    Rows line (rowsAll 0 as) ls →
    Reads (fun as' : List (Assignment Position) => bareOf as' = bareOf as) [] (callNoTuple as)
      (outcomeAll (Read.assignments last ls))
  | [], _, _, h => by
    rw [rowsAll] at h
    cases h
    rw [outcomeAll_assignments_nil]
    exact .some rfl
  | a :: as, _, _, h => by
    have hfirst := h
    rw [rowsAll] at h hfirst
    obtain ⟨ls₁, ls₂, rfl, hls₁, hls₂⟩ := h.append_inv
    have hmore := reads_assignments last hls₂
    -- The lines behind this assignment start with the next one, at the margin, or there are none.
    have hbelow : Below (2 * 0) ls₂ := by
      cases as with
      | nil =>
        rw [rowsAll] at hls₂
        cases hls₂
        trivial
      | cons a as =>
        rw [rowsAll] at hls₂
        obtain ⟨x, column, ls₂, rfl⟩ := exists_first hls₂
        exact ⟨⟨x, rfl⟩, rfl, Nat.le_refl _⟩
    have hread := readable last 0 a hls₁ hbelow
    obtain ⟨x, column, ls, hls⟩ := exists_first hfirst
    rw [hls] at hread ⊢
    rw [outcomeAll_assignments_cons]
    refine hread.bind fun a' ha' => ?_
    refine hmore.andThen fun more hmore => ?_
    exact .some (congr (congrArg List.cons ha'.bare) hmore)

end Assignment

end Lamcode
