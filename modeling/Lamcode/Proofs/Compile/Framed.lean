import Lamcode.Proofs.Compile.Draft
import Lamcode.Proofs.Emit.Frame
import Lamcode.Proofs.Result

/-!
# Lamcode.Proofs.Compile.Framed — code keeps to its frame

Calls, tuples, assignments and functions each move the frame by another amount and address the same words under other
offsets. That they fit together at every nesting is one invariant, `Frame.Keeps`: code that is entered at some depth,
with the scope pointer two slots below, comes back to that depth, has written no slot below it, and has written the
slot at it last. What is below belongs to the code around.

The main result says this of a whole program that was compiled: of the code that was written for each expression and
each assignment in it, where it stands in the code around it, of each function body, and, without any move of the base,
of the levels of the built-ins and the scope allocator.
-/

namespace Lamcode

open Emit Operand

/-! ## What code does to the frame around it -/

namespace Frame

/-- What was written since then is at `d` or above. -/
structure Above (d : Int) (F G : Frame) : Prop where
  given : G.given = F.given
  stores : ∃ new, G.stores = new ++ F.stores ∧ ∀ x ∈ new, d ≤ x

/-- The base is back where it was, and everything written is at it or above. -/
structure Stays (F G : Frame) : Prop where
  above : Above F.depth F G
  depth : G.depth = F.depth

/-- The same, and the last slot written is the one at the base. -/
structure Keeps (F G : Frame) : Prop extends Stays F G where
  last : G.stores.head? = some F.depth

/-- Code of a tree can be entered: the scope pointer is where it is expected. -/
structure Ready (F : Frame) : Prop where
  nonneg : 0 ≤ F.depth
  scope : F.Known (F.depth + scopeSlot)

variable {d d' : Int} {F G H : Frame} {x : Int}

namespace Above

theorem refl (d : Int) (F : Frame) : Above d F F :=
  ⟨rfl, [], rfl, nofun⟩

theorem trans (h : Above d F G) (k : Above d G H) : Above d F H := by
  obtain ⟨hgiven, new, hstores, hnew⟩ := h
  obtain ⟨hgiven', new', hstores', hnew'⟩ := k
  refine ⟨hgiven'.trans hgiven, new' ++ new, ?_, ?_⟩
  · rw [hstores', hstores, List.append_assoc]
  · intro x hx
    exact (List.mem_append.1 hx).elim (hnew' x) (hnew x)

theorem mono (h : Above d F G) (hd : d' ≤ d) : Above d' F G := by
  obtain ⟨hgiven, new, hstores, hnew⟩ := h
  exact ⟨hgiven, new, hstores, fun x hx => Int.le_trans hd (hnew x hx)⟩

theorem move (h : Above d F G) (n : Int) : Above d F (G.move n) :=
  ⟨h.given, h.stores⟩

theorem store (h : Above d F G) (hx : d ≤ x) : Above d F (G.store x) :=
  h.trans ⟨rfl, [x], rfl, by simpa using hx⟩

theorem known (h : Above d F G) (hx : F.Known x) : G.Known x := by
  obtain ⟨hgiven, new, hstores, -⟩ := h
  unfold Known at *
  rw [hgiven, hstores, List.mem_append]
  tauto

end Above

theorem Stays.refl (F : Frame) : F.Stays F :=
  ⟨.refl _ F, rfl⟩

theorem Stays.trans (h : F.Stays G) (k : G.Stays H) : F.Stays H :=
  ⟨h.above.trans (h.depth ▸ k.above), k.depth.trans h.depth⟩

theorem Stays.ready (h : F.Stays G) (hF : F.Ready) : G.Ready where
  nonneg := h.depth ▸ hF.nonneg
  scope := h.depth ▸ h.above.known hF.scope

/-- The result stands at the base. -/
theorem Keeps.known (h : F.Keeps G) (hF : F.Ready) : G.Known G.depth :=
  .inr ⟨h.depth ▸ hF.nonneg, .inl (h.depth ▸ List.mem_of_head? h.last)⟩

theorem ready_entry (given : List Int) : (entry given).Ready :=
  ⟨Int.le_refl 0, .inl rfl⟩

end Frame

/-- Wherever the code can be entered, it keeps to the frame. -/
def Tidy (items : List Item) : Prop :=
  ∀ F : Frame, F.Ready → ∃ G, F.read items = some G ∧ F.Keeps G

/-! ## Framed code -/

/-- The code of an expression or an assignment, read from where it is entered: all moves of the base are known
numbers, the depth is never negative and is zero in the end, no slot below the frame is written, and no slot is loaded
but that of the scope pointer and those that were written before; slot 0 is written last. -/
def Framed (items : List Item) : Prop :=
  ∃ G, (Frame.entry []).read items = some G ∧ G.depth = 0 ∧ G.stores.head? = some 0

/-- Goes to the address in an operand, whatever else the machine holds. -/
inductive Line.JumpsTo (w : OperandWord) : Line → Prop
  | onZero : JumpsTo w ⟨.jumpIfFalse, [.plain .immediate (.num 0), w]⟩
  | onNonzero {n : Int} (h : n ≠ 0) : JumpsTo w ⟨.jumpIfTrue, [.plain .immediate (.num n), w]⟩

/-- The same of the body of a function, which finds its record in slot 0 and the return address in slot 1. It leaves
slot 1 alone and ends with an instruction that stores to slot 0 and one that goes to the address in slot 1. -/
def FramedBody (items : List Item) : Prop :=
  ∃ lines G front last back, Item.listing items = some lines ∧ (Frame.entry [0, 1]).run lines = some G ∧
    G.depth = 0 ∧ G.stores.head? = some 0 ∧ 1 ∉ G.stores ∧ lines = front ++ [last, back] ∧
    last.target? = some (.plain .relative (.num 0)) ∧ back.JumpsTo (.plain .relative (.num 1))

/-- A fragment with other fragments inside it, in their order: the code of each one stands in its code, and its
function bodies are theirs. -/
inductive Fragment.Around : List Fragment → Fragment → Prop
  | nil (items : List Item) : Around [] ⟨items, []⟩
  | cons (gap : List Item) (part : Fragment) {parts : List Fragment} {rest : Fragment} (h : Around parts rest) :
    Around (part :: parts) ⟨gap ++ part.inPlace ++ rest.inPlace, part.hoisted ++ rest.hoisted⟩

/-- The fragment is what a computation writes, somewhere in a compilation with the scopes `t`, and it is framed. -/
structure FramedCode (t : ScopeTable) (e : Emit Fragment) (f : Fragment) : Prop where
  written : ∃ site, Emits t site e f
  framed : Framed f.inPlace

/-- The fragment is the code of the expression, and framed, and so are the fragments in it that belong to the parts of
the expression. -/
inductive Expr.Framed (t : ScopeTable) : Expr Site → Fragment → Prop
  | number {site : Site} {value : Int} {f : Fragment} (h : FramedCode t (emit (.number site value)) f)
    (hf : f.Around []) : Framed t (.number site value) f
  | var {site : Site} {name : String} {f : Fragment} (h : FramedCode t (emit (.var site name)) f)
    (hf : f.Around []) : Framed t (.var site name) f
  | group {site : Site} {e : Expr Site} {f : Fragment} (h : FramedCode t (emit (.group site e)) f)
    (hinner : Framed t e f) : Framed t (.group site e) f
  | tuple {site : Site} {items : List (Expr Site)} {f : Fragment} {parts : List Fragment}
    (h : FramedCode t (emit (.tuple site items)) f) (hitems : List.Forall₂ (Framed t) items parts)
    (hf : f.Around parts) : Framed t (.tuple site items) f
  | call {site : Site} {g x : Expr Site} {f fg fx : Fragment} (h : FramedCode t (emit (.call site g x)) f)
    (hg : Framed t g fg) (hx : Framed t x fx) (hf : f.Around [fg, fx]) : Framed t (.call site g x) f
  | function {site : Site} {param : String} {body : Expr Site} {inner : Fragment} {closure enter leave : List Item}
    (entry : Label)
    (h : FramedCode t (emit (.function site param body))
      ⟨closure, .hanging entry :: enter ++ inner.inPlace ++ leave ++ inner.hoisted⟩)
    (henter : Emits t site (moveStack 2) enter) (hinner : Framed t body inner)
    (hleave : Emits t site (concat [moveStack (-2), copy (rel 2) (rel 0), jump (rel 1)]) leave)
    (hbody : FramedBody (.hanging entry :: enter ++ inner.inPlace ++ leave)) :
    Framed t (.function site param body)
      ⟨closure, .hanging entry :: enter ++ inner.inPlace ++ leave ++ inner.hoisted⟩

/-- The same of an assignment. -/
inductive Assignment.Framed (t : ScopeTable) : Assignment Site Header → Fragment → Prop
  | mk {head : Header} {name : String} {value : Expr Site} {clauses : List (Assignment Site Header)} {f fv : Fragment}
    {parts : List Fragment} (h : FramedCode t (emit (.mk head name value clauses)) f)
    (hclauses : List.Forall₂ (Framed t) clauses parts) (hvalue : value.Framed t fv) (hf : f.Around (parts ++ [fv])) :
    Framed t (.mk head name value clauses) f

/-! ## Trees -/

theorem framed_of_tidy {items : List Item} (h : Tidy items) : Framed items := by
  obtain ⟨G, hread, hkeeps⟩ := h (.entry []) (Frame.ready_entry [])
  exact ⟨G, hread, hkeeps.depth, hkeeps.last⟩

namespace Fragment.Around

variable {parts : List Fragment} {rest : Fragment}

theorem code (gap : List Item) (h : rest.Around parts) : ((ofItems gap).append rest).Around parts := by
  cases h with
  | nil items => exact .nil (gap ++ items)
  | cons gap' part h =>
    have := cons (gap ++ gap') part h
    simpa [append, ofItems] using this

theorem part (p : Fragment) (h : rest.Around parts) : (p.append rest).Around (p :: parts) :=
  cons [] p h

theorem append {parts' : List Fragment} {f : Fragment} (h : f.Around parts) (k : rest.Around parts') :
    (f.append rest).Around (parts ++ parts') := by
  induction h with
  | nil items => exact k.code items
  | @cons gap part parts rest' _ ih =>
    have := cons gap part ih
    simpa [Fragment.append] using this

end Fragment.Around

namespace Frame

variable {F G : Frame}

theorem keeps_store (h : Above F.depth F G) (hdepth : G.depth = F.depth) : F.Keeps (G.store F.depth) where
  above := h.store (Int.le_refl _)
  depth := hdepth
  last := rfl

/-- Code that only leaves a value in slot 0. -/
theorem passes_value {source : Operand} (hF : F.Ready) (hsource : source.Safe F) :
    F.Passes (concat [copy source (rel 0)]) (F.store F.depth) :=
  .cons (.copy _ _) (.copy hsource (settles_rel (Int.add_zero _) hF.nonneg)) .nil

/-- The code in front of the elements of a tuple: the scope pointer is copied to the base, and the address of the tuple
above it. -/
theorem passes_tuple_open {n : Int} {empty : Bool} (hF : F.Ready) :
    F.Passes (concat ([copy (rel (-2)) (rel 0), moveStack 2, copy (.wordAt .ramPointer) (rel (-1)),
      writeToRam (.int n)] ++ if empty then [] else [addTo (.int n) (.wordAt .ramPointer)]))
      (((F.store F.depth).move 2).store (F.depth + 1)) := by
  have hd := hF.nonneg
  have hscope : (rel (-2)).Safe F := safe_rel.2 hF.scope
  have hreserve : ∀ G : Frame, G.Passes (concat (if empty then [] else [addTo (.int n) (.wordAt .ramPointer)])) G := by
    intro G
    cases empty with
    | true => exact .nil
    | false => exact .cons (.addTo _ _) (.addTo rfl rfl (settles_of_mode rfl nofun)) .nil
  exact .cons (.copy _ _) (.copy hscope (settles_rel (Int.add_zero _) hd)) <|
    .cons (.moveStack _) (.moveStack (by grind)) <|
    .cons (.copy _ _) (.copy rfl (settles_rel (by grind) (by grind))) <|
    .cons (.writeToRam _) (.writeToRam rfl) (hreserve _)

/-- The code behind an element: it goes into the tuple whose address is below the base. -/
theorem passes_element {index : Int} (hvalue : F.Known F.depth) (htuple : F.Known (F.depth - 1)) :
    F.Passes (concat [copy (rel 0) (.offset (.spill (rel (-1))) (.int index))]) F := by
  have hcell : (Operand.offset (.spill (rel (-1))) (.int index)).Safe F := ⟨nofun, safe_rel.2 htuple, rfl⟩
  exact .cons (.copy _ _) (.copy (safe_rel.2 (by grind)) (settles_of_mode hcell nofun)) .nil

/-- The code in front of a call: the scope pointer is copied to where the function and the argument find it. -/
theorem passes_call_open (hF : F.Ready) :
    F.Passes (concat [copy (rel (-2)) (rel 1), moveStack 3]) ((F.store (F.depth + 1)).move 3) := by
  have hd := hF.nonneg
  have hscope : (rel (-2)).Safe F := safe_rel.2 hF.scope
  exact .cons (.copy _ _) (.copy hscope (settles_rel rfl (by omega))) <|
    .cons (.moveStack _) (.moveStack (by grind)) .nil

/-- The code between function and argument. -/
theorem passes_call_between {d : Int} (hd : 0 ≤ d) (hdepth : F.depth = d + 3) (hvalue : F.Known F.depth) :
    F.Passes (concat [copy (rel 0) (rel (-3))]) (F.store d) :=
  .cons (.copy _ _) (.copy (safe_rel.2 (by grind)) (settles_rel (by omega) hd)) .nil

/-- The code behind the argument: the record of the call is built, the call made and the result fetched. -/
theorem passes_call_close {d : Int} (resume : Label) (hd : 0 ≤ d) (hdepth : F.depth = d + 3)
    (hvalue : F.Known F.depth) (hclosure : F.Known d) :
    F.Passes (concat [copy (rel 0) (rel (-1)), copy (.wordAt .ramPointer) (rel 0),
      writeToRam (Operand.offset (.int Heap.closureScope) (rel (-3))).toPointer, writeToRam (rel (-1)),
      copy (.addressOf resume) (rel 1), jump (Operand.offset (.int Heap.closureCode) (rel (-3))).toPointer,
      placeLabel resume, moveStack (-3), copy (rel 3) (rel 0)])
      (((((F.store (d + 2)).store (d + 3)).store (d + 4)).move (-3)).store d) := by
  -- a word of the closure is addressed from the slot that holds it
  have hword {G : Frame} (n : Int) (h : G.Known (G.depth + -3)) :
      (Operand.offset (.int n) (rel (-3))).toPointer.Safe G :=
    ⟨nofun, nofun, rfl, safe_rel.2 h⟩
  exact .cons (.copy _ _) (.copy (safe_rel.2 (by grind)) (settles_rel (by omega) (by omega))) <|
    .cons (.copy _ _) (.copy rfl (settles_rel (by grind) (by omega))) <|
    .cons (.writeToRam _) (.writeToRam (hword _ (by grind))) <|
    .cons (.writeToRam _) (.writeToRam (safe_rel.2 (by grind))) <|
    .cons (.copy _ _) (.copy rfl (settles_rel (by grind) (by omega))) <|
    .cons (.jump _) (.jump (hword _ (by grind))) <|
    .cons (.placeLabel _) (.placeLabel _) <|
    .cons (.moveStack _) (.moveStack (by grind)) <|
    .cons (.copy _ _) (.copy (safe_rel.2 (by grind)) (settles_rel (by grind) hd)) .nil

/-- The code that makes a closure. -/
theorem passes_closure (entry : Label) (hF : F.Ready) :
    F.Passes (concat [copy (.wordAt .ramPointer) (rel 0), writeToRam (.addressOf entry), writeToRam (rel (-2))])
      (F.store F.depth) :=
  .cons (.copy _ _) (.copy rfl (settles_rel (Int.add_zero _) hF.nonneg)) <|
    .cons (.writeToRam _) (.writeToRam rfl) <|
    .cons (.writeToRam _) (.writeToRam (safe_rel.2 (known_store.2 (.inl hF.scope)))) .nil

/-- The code in front of the clauses of an assignment: the scope allocator is called. -/
theorem passes_assignment_open {n : Int} (ready : Label) (hF : F.Ready) :
    F.Passes (concat [copy (.int n) (rel 0), copy (rel (-2)) (rel 1), copy (.addressOf ready) (rel 2),
      jump (.addressOf .allocateScope), placeLabel ready, moveStack 2])
      ((((F.store F.depth).store (F.depth + 1)).store (F.depth + 2)).move 2) := by
  have hd := hF.nonneg
  have hscope : (rel (-2)).Safe (F.store F.depth) := safe_rel.2 (known_store.2 (.inl hF.scope))
  exact .cons (.copy _ _) (.copy rfl (settles_rel (Int.add_zero _) hd)) <|
    .cons (.copy _ _) (.copy hscope (settles_rel (by grind) (by omega))) <|
    .cons (.copy _ _) (.copy rfl (settles_rel (by grind) (by omega))) <|
    .cons (.jump _) (.jump rfl) <|
    .cons (.placeLabel _) (.placeLabel _) <|
    .cons (.moveStack _) (.moveStack (by grind)) .nil

/-- The code behind a clause: its value goes to a variable. -/
theorem passes_clause {name : String} (hF : F.Ready) (hvalue : F.Known F.depth) :
    F.Passes (concat [copy (rel 0) (.named name)]) F := by
  have hslot : (Operand.named name).Safe F := hF.scope
  exact .cons (.copy _ _) (.copy (safe_rel.2 (by grind)) (settles_of_mode hslot nofun)) .nil

/-- The code that goes back by `n` words and puts what is in a slot at the base. -/
theorem passes_leave {d : Int} (n k : Int) (hd : 0 ≤ d) (hdepth : F.depth = d + n) (hresult : F.Known (d + k)) :
    F.Passes (concat [moveStack (-n), copy (rel k) (rel 0)]) ((F.move (-n)).store d) :=
  .cons (.moveStack _) (.moveStack (by omega)) <|
    .cons (.copy _ _) (.copy (safe_rel.2 (by grind)) (settles_rel (by grind) hd)) .nil

/-- Code that stays in a frame some words up, between going there and coming back. -/
theorem keeps_enclosed {F₁ : Frame} {n : Int} (hn : 0 ≤ n) (hopening : Above F.depth F F₁)
    (hdepth : F₁.depth = F.depth + n) (h : F₁.Stays G) : F.Keeps ((G.move (-n)).store F.depth) := by
  have habove : Above F.depth F G := hopening.trans (h.above.mono (by omega))
  have hback : (G.move (-n)).depth = F.depth := by grind [h.depth]
  exact keeps_store (habove.move (-n)) hback

end Frame

/-! ### Whole trees -/

/-- Code that may be entered where the word below the base is known stays in its frame. -/
def Stays (items : List Item) : Prop :=
  ∀ F : Frame, F.Ready → F.Known (F.depth - 1) → ∃ G, F.read items = some G ∧ F.Stays G

variable {t : ScopeTable} {site : Site} {f : Fragment}

theorem tidy_of_passes {pieces : List (Emit (List Item))} {items : List Item}
    (h : ∀ F : Frame, F.Ready → ∃ G, F.Passes (concat pieces) G ∧ F.Keeps G)
    (hitems : Emits t site (concat pieces) items) : Tidy items := by
  intro F hF
  obtain ⟨G, hpasses, hkeeps⟩ := h F hF
  exact ⟨G, hpasses hitems, hkeeps⟩

/-- Code that leaves one value in slot 0. -/
theorem tidy_value (source : Operand) (hsource : ∀ F : Frame, F.Ready → source.Safe F)
    (h : Emits t site (Fragment.code [copy source (rel 0)]) f) : Tidy f.inPlace ∧ f.Around [] := by
  obtain ⟨items, hitems, rfl⟩ := h.fragmentCode
  refine ⟨tidy_of_passes (fun F hF => ?_) hitems, .nil _⟩
  exact ⟨_, Frame.passes_value hF (hsource F hF), Frame.keeps_store (.refl _ F) rfl⟩

theorem tidy_tuple {n : Int} {empty : Bool} {opening items closing : List Item}
    (hopening : Emits t site (concat ([copy (rel (-2)) (rel 0), moveStack 2, copy (.wordAt .ramPointer) (rel (-1)),
      writeToRam (.int n)] ++ if empty then [] else [addTo (.int n) (.wordAt .ramPointer)])) opening)
    (hitems : Stays items) (hclosing : Emits t site (concat [moveStack (-2), copy (rel 1) (rel 0)]) closing) :
    Tidy (opening ++ (items ++ closing)) := by
  intro F hF
  have hd := hF.nonneg
  have hread := Frame.passes_tuple_open hF hopening
  generalize hF₁ : ((F.store F.depth).move 2).store (F.depth + 1) = F₁ at hread
  have hdepth : F₁.depth = F.depth + 2 := by grind
  have habove : Frame.Above F.depth F F₁ := by
    rw [← hF₁]
    exact (((Frame.Above.refl _ F).store (Int.le_refl _)).move 2).store (by omega)
  have hready : F₁.Ready := ⟨by omega, by grind [scopeSlot]⟩
  obtain ⟨G, hG, hstays⟩ := hitems F₁ hready (by grind)
  have htuple : G.Known (F.depth + 1) := hstays.above.known (by grind)
  have hclose := Frame.passes_leave 2 1 hd (hstays.depth.trans hdepth) htuple hclosing
  refine ⟨_, Eq.trans ?_ hclose, Frame.keeps_enclosed (by decide) habove hdepth hstays⟩
  rw [Frame.read_append hread, Frame.read_append hG]

theorem stays_nil : Stays [] :=
  fun F _ _ => ⟨F, Frame.read_nil, .refl F⟩

theorem stays_element {index : Int} {value store rest : List Item} (hvalue : Tidy value)
    (hstore : Emits t site (concat [copy (rel 0) (.offset (.spill (rel (-1))) (.int index))]) store)
    (hrest : Stays rest) : Stays (value ++ (store ++ rest)) := by
  intro F hF htuple
  obtain ⟨G, hG, hkeeps⟩ := hvalue F hF
  have htupleG : G.Known (G.depth - 1) := hkeeps.depth ▸ hkeeps.above.known htuple
  obtain ⟨H, hH, hstays⟩ := hrest G (hkeeps.ready hF) htupleG
  refine ⟨H, ?_, hkeeps.toStays.trans hstays⟩
  rw [Frame.read_append hG, Frame.read_append (Frame.passes_element (hkeeps.known hF) htupleG hstore), hH]

theorem tidy_call {resume : Label} {opening function between argument closing : List Item}
    (hopening : Emits t site (concat [copy (rel (-2)) (rel 1), moveStack 3]) opening) (hfunction : Tidy function)
    (hbetween : Emits t site (concat [copy (rel 0) (rel (-3))]) between) (hargument : Tidy argument)
    (hclosing : Emits t site (concat [copy (rel 0) (rel (-1)), copy (.wordAt .ramPointer) (rel 0),
      writeToRam (Operand.offset (.int Heap.closureScope) (rel (-3))).toPointer, writeToRam (rel (-1)),
      copy (.addressOf resume) (rel 1), jump (Operand.offset (.int Heap.closureCode) (rel (-3))).toPointer,
      placeLabel resume, moveStack (-3), copy (rel 3) (rel 0)]) closing) :
    Tidy (opening ++ (function ++ (between ++ (argument ++ closing)))) := by
  intro F hF
  have hd := hF.nonneg
  have hread := Frame.passes_call_open hF hopening
  generalize hF₁ : (F.store (F.depth + 1)).move 3 = F₁ at hread
  have hdepth : F₁.depth = F.depth + 3 := by grind
  have habove : Frame.Above F.depth F F₁ := by
    rw [← hF₁]
    exact ((Frame.Above.refl _ F).store (by omega)).move 3
  have hready : F₁.Ready := ⟨by omega, by grind [scopeSlot]⟩
  obtain ⟨G, hG, hkeepsG⟩ := hfunction F₁ hready
  have hdepthG : G.depth = F.depth + 3 := hkeepsG.depth.trans hdepth
  have hmid := Frame.passes_call_between hd hdepthG (hkeepsG.known hready) hbetween
  -- the closure is stored below the frame of the call, where the argument leaves it
  have hreadyG : (G.store F.depth).Ready :=
    ⟨(hkeepsG.ready hready).nonneg, Frame.known_store.2 (.inl (hkeepsG.ready hready).scope)⟩
  obtain ⟨H, hH, hkeepsH⟩ := hargument (G.store F.depth) hreadyG
  have hdepthH : H.depth = F.depth + 3 := hkeepsH.depth.trans hdepthG
  have hclosure : H.Known F.depth := hkeepsH.above.known (Frame.known_store.2 (.inr ⟨hd, rfl⟩))
  have hlast := Frame.passes_call_close resume hd hdepthH (hkeepsH.known hreadyG) hclosure hclosing
  refine ⟨_, Eq.trans ?_ hlast, Frame.keeps_store ?_ ?_⟩
  · rw [Frame.read_append hread, Frame.read_append hG, Frame.read_append hmid, Frame.read_append hH]
  · have haboveG : Frame.Above F.depth F G := habove.trans (hkeepsG.above.mono (by omega))
    have haboveH : Frame.Above F.depth F H :=
      (haboveG.store (Int.le_refl _)).trans (hkeepsH.above.mono (by grind))
    exact (((haboveH.store (by omega)).store (by omega)).store (by omega)).move (-3)
  · grind

theorem tidy_assignment {n : Int} {ready : Label} {opening clauses value closing : List Item}
    (hopening : Emits t site (concat [copy (.int n) (rel 0), copy (rel (-2)) (rel 1), copy (.addressOf ready) (rel 2),
      jump (.addressOf .allocateScope), placeLabel ready, moveStack 2]) opening)
    (hclauses : Stays clauses) (hvalue : Tidy value)
    (hclosing : Emits t site (concat [moveStack (-2), copy (rel 2) (rel 0)]) closing) :
    Tidy (opening ++ (clauses ++ (value ++ closing))) := by
  intro F hF
  have hd := hF.nonneg
  have hread := Frame.passes_assignment_open ready hF hopening
  generalize hF₁ : (((F.store F.depth).store (F.depth + 1)).store (F.depth + 2)).move 2 = F₁ at hread
  have hdepth : F₁.depth = F.depth + 2 := by grind
  have habove : Frame.Above F.depth F F₁ := by
    rw [← hF₁]
    exact ((((Frame.Above.refl _ F).store (Int.le_refl _)).store (by omega)).store (by omega)).move 2
  have hready : F₁.Ready := ⟨by omega, by grind [scopeSlot]⟩
  obtain ⟨G, hG, hstays⟩ := hclauses F₁ hready (by grind)
  obtain ⟨H, hH, hkeeps⟩ := hvalue G (hstays.ready hready)
  have hstaysH : F₁.Stays H := hstays.trans hkeeps.toStays
  have hresult : H.Known (F.depth + 2) := hstaysH.depth.trans hdepth ▸ hkeeps.known (hstays.ready hready)
  have hclose := Frame.passes_leave 2 2 hd (hstaysH.depth.trans hdepth) hresult hclosing
  refine ⟨_, Eq.trans ?_ hclose, Frame.keeps_enclosed (by decide) habove hdepth hstaysH⟩
  rw [Frame.read_append hread, Frame.read_append hG, Frame.read_append hH]

theorem stays_clause {name : String} {clause store rest : List Item} (hclause : Tidy clause)
    (hstore : Emits t site (concat [copy (rel 0) (.named name)]) store) (hrest : Stays rest) :
    Stays (clause ++ (store ++ rest)) := by
  intro F hF hbelow
  obtain ⟨G, hG, hkeeps⟩ := hclause F hF
  have hready := hkeeps.ready hF
  obtain ⟨H, hH, hstays⟩ := hrest G hready (hkeeps.depth ▸ hkeeps.above.known hbelow)
  refine ⟨H, ?_, hkeeps.toStays.trans hstays⟩
  rw [Frame.read_append hG, Frame.read_append (Frame.passes_clause hready (hkeeps.known hF) hstore), hH]

/-- A copy between slots is one instruction. -/
theorem exists_line_of_copy {a b : Int} {items : List Item} (h : Emits t site (copy (rel a) (rel b)) items) :
    ∃ line, Item.listing items = some [line] ∧ line.target? = some (.plain .relative (.num b)) := by
  obtain ⟨la, lb, hla, hlb, hitems⟩ := h.copy
  rw [rel, lower] at hla hlb
  obtain rfl := hla.pure
  obtain rfl := hlb.pure
  let slot (n : Int) : OperandWord := .plain .relative (.num n)
  let const (n : Int) : OperandWord := .plain .immediate (.num n)
  simp only [copyForms, List.mem_cons, List.not_mem_nil, or_false] at hitems
  rcases hitems with rfl | rfl | rfl | rfl
  · exact ⟨_, Lowered.listing_instruction [slot a, const 0, slot b] rfl, rfl⟩
  · exact ⟨_, Lowered.listing_instruction [const 0, slot a, slot b] rfl, rfl⟩
  · exact ⟨_, Lowered.listing_instruction [slot a, const 1, slot b] rfl, rfl⟩
  · exact ⟨_, Lowered.listing_instruction [const 1, slot a, slot b] rfl, rfl⟩

/-- A jump through a slot is one instruction. -/
theorem exists_line_of_jump {a : Int} {items : List Item} (h : Emits t site (jump (rel a)) items) :
    ∃ line, Item.listing items = some [line] ∧ line.JumpsTo (.plain .relative (.num a)) := by
  have hline {op : Opcode} {n : Int} (harity : 2 = op.arity)
      (h : Emits t site (instruction op [.int n, rel a]) items) :
      Item.listing items = some [⟨op, [.plain .immediate (.num n), .plain .relative (.num a)]⟩] := by
    obtain ⟨_, hls, rfl⟩ := h.instruction
    obtain ⟨lc, _, hlc, hts, rfl⟩ := hls.lowerAll_cons
    obtain ⟨lt, _, hlt, hnil, rfl⟩ := hts.lowerAll_cons
    obtain rfl := hnil.lowerAll_nil
    rw [int, imm, lower] at hlc
    rw [rel, lower] at hlt
    obtain rfl := hlc.pure
    obtain rfl := hlt.pure
    exact Lowered.listing_instruction [.plain .immediate (.num n), .plain .relative (.num a)] harity
  rcases h.jump with h | ⟨n, hn, h⟩
  · exact ⟨_, hline rfl h, .onZero⟩
  · exact ⟨_, hline rfl h, .onNonzero hn⟩

theorem framedBody_of_tidy {entry : Label} {enter inner leave : List Item} (henter : Emits t site (moveStack 2) enter)
    (hinner : Tidy inner)
    (hleave : Emits t site (concat [moveStack (-2), copy (rel 2) (rel 0), jump (rel 1)]) leave) :
    FramedBody (.hanging entry :: enter ++ inner ++ leave) := by
  obtain ⟨back, _, hback, hleave', rfl⟩ := hleave.concat_cons (.moveStack _)
  obtain ⟨result, _, hresult, hleave'', rfl⟩ := hleave'.concat_cons (.copy _ _)
  obtain ⟨exit, _, hexit, hnil, rfl⟩ := hleave''.concat_cons (.jump _)
  obtain rfl := hnil.concat_nil
  -- up to the last two instructions
  have hready : ((Frame.entry [0, 1]).move 2).Ready := ⟨by decide, by decide⟩
  obtain ⟨G, hG, hkeeps⟩ := hinner _ hready
  have hdepth : G.depth = 2 := hkeeps.depth
  have hmoved : (G.move (-2)).depth = 0 := by grind
  have hfront : (Frame.entry [0, 1]).read (.hanging entry :: enter ++ inner ++ back) = some (G.move (-2)) := by
    rw [List.cons_append, List.cons_append, Frame.read_hanging, List.append_assoc,
      Frame.read_append (Frame.Passes.moveStack (by decide) henter), Frame.read_append hG]
    exact Frame.Passes.moveStack (by omega) hback
  obtain ⟨front, hlisting, hrun⟩ := Frame.exists_listing_of_read hfront
  -- the last two
  have hvalue : (G.move (-2)).Known ((G.move (-2)).depth + 2) := by grind [hkeeps.known hready]
  have hreturn : G.Known 1 := hkeeps.above.known (by decide)
  have hstore := Frame.Passes.copy (safe_rel.2 hvalue) (Frame.settles_rel (by omega) (Int.le_refl 0)) hresult
  have hjump : ((G.move (-2)).store 0).read exit = some ((G.move (-2)).store 0) :=
    Frame.Passes.jump (safe_rel.2 (by grind)) hexit
  obtain ⟨last, hlast, htarget⟩ := exists_line_of_copy hresult
  obtain ⟨goBack, hgoBack, hjumps⟩ := exists_line_of_jump hexit
  have hitems : .hanging entry :: enter ++ inner ++ (back ++ (result ++ (exit ++ []))) =
      (.hanging entry :: enter ++ inner ++ back) ++ (result ++ exit) := by simp
  have hlines : Item.listing ((.hanging entry :: enter ++ inner ++ back) ++ (result ++ exit)) =
      some (front ++ [last, goBack]) := by
    rw [Item.listing_append hlisting, Item.listing_append hlast, hgoBack]
    rfl
  have hread : (Frame.entry [0, 1]).read ((.hanging entry :: enter ++ inner ++ back) ++ (result ++ exit)) =
      some ((G.move (-2)).store 0) := by
    rw [Frame.read_append hfront, Frame.read_append hstore, hjump]
  rw [Frame.read, hlines, Option.bind_some] at hread
  obtain ⟨new, hstores, hnew⟩ := hkeeps.above.stores
  refine ⟨_, _, front, last, goBack, hitems ▸ hlines, hread, hmoved, rfl, ?_, rfl, htarget, hjumps⟩
  have hslots : ((G.move (-2)).store 0).stores = 0 :: new := congrArg (0 :: ·) (hstores.trans (List.append_nil _))
  rw [hslots, List.mem_cons]
  rintro (h | h)
  · cases h
  · exact absurd (hnew 1 h) (by decide)

/-- Code that stands by itself, as a fragment that ends. -/
theorem around_code {pieces : List (Emit (List Item))} (h : Emits t site (Fragment.code pieces) f) :
    Emits t site (concat pieces) f.inPlace ∧ f.Around [] := by
  obtain ⟨items, hitems, rfl⟩ := h.fragmentCode
  exact ⟨hitems, .nil items⟩

namespace Expr

mutual

/-- The code of an expression is framed, with the code of all its parts. -/
theorem tidy_framed : ∀ (e : Expr Site) {t : ScopeTable} {other : Site} {f : Fragment},
    Emits t other e.emit f → Tidy f.inPlace ∧ e.Framed t f
  | .number site value, t, other, f, h => by
    have hwritten := h
    rw [emit] at h
    obtain ⟨htidy, hf⟩ := tidy_value (.int value) (fun _ _ => rfl) h.within
    exact ⟨htidy, .number ⟨⟨other, hwritten⟩, framed_of_tidy htidy⟩ hf⟩
  | .var site name, t, other, f, h => by
    have hwritten := h
    rw [emit] at h
    obtain ⟨htidy, hf⟩ := tidy_value (.named name) (fun _ hF => hF.scope) h.within
    exact ⟨htidy, .var ⟨⟨other, hwritten⟩, framed_of_tidy htidy⟩ hf⟩
  | .group site e, t, other, f, h => by
    have hwritten := h
    rw [emit] at h
    obtain ⟨htidy, hframed⟩ := tidy_framed e h.within
    exact ⟨htidy, .group ⟨⟨other, hwritten⟩, framed_of_tidy htidy⟩ hframed⟩
  | .tuple site items, t, other, f, h => by
    have hwritten := h
    rw [emit] at h
    obtain ⟨f₁, _, h₁, k, rfl⟩ := Emits.fragmentCons (.fragmentCode (by split <;> simp)) h.within
    obtain ⟨f₂, f₃, h₂, h₃, rfl⟩ := k.fragmentCons (.exprItems 0 items)
    obtain ⟨opening, hopening, rfl⟩ := h₁.fragmentCode
    obtain ⟨hclosing, haround⟩ := around_code h₃.fragmentLast
    obtain ⟨hstays, parts, hparts, hf⟩ := stays_framed 0 items h₂
    have htidy := tidy_tuple hopening hstays hclosing
    have hall := (hf.append haround).code opening
    rw [List.append_nil] at hall
    exact ⟨htidy, .tuple ⟨⟨other, hwritten⟩, framed_of_tidy htidy⟩ hparts hall⟩
  | .call site g x, t, other, f, h => by
    have hwritten := h
    rw [emit] at h
    obtain ⟨resume, -, k⟩ := h.within.bind (.fresh _)
    obtain ⟨f₁, _, h₁, k₁, rfl⟩ := k.fragmentCons (.fragmentCode (by simp))
    obtain ⟨fg, _, hg, k₂, rfl⟩ := k₁.fragmentCons (.expr g)
    obtain ⟨f₂, _, h₂, k₃, rfl⟩ := k₂.fragmentCons (.fragmentCode (by simp))
    obtain ⟨fx, f₃, hx, h₃, rfl⟩ := k₃.fragmentCons (.expr x)
    obtain ⟨opening, hopening, rfl⟩ := h₁.fragmentCode
    obtain ⟨between, hbetween, rfl⟩ := h₂.fragmentCode
    obtain ⟨hclosing, haround⟩ := around_code h₃.fragmentLast
    obtain ⟨htidyG, hframedG⟩ := tidy_framed g hg
    obtain ⟨htidyX, hframedX⟩ := tidy_framed x hx
    have htidy := tidy_call hopening htidyG hbetween htidyX hclosing
    exact ⟨htidy, .call ⟨⟨other, hwritten⟩, framed_of_tidy htidy⟩ hframedG hframedX
      ((((haround.part fx).code between).part fg).code opening)⟩
  | .function site param body, t, other, f, h => by
    obtain ⟨entry, inner, closure, enter, leave, hinner, hclosure, henter, hleave, rfl⟩ := h.function
    obtain ⟨htidy, hframed⟩ := tidy_framed body hinner
    have hclosureTidy : Tidy closure := tidy_of_passes
      (fun F hF => ⟨_, Frame.passes_closure entry hF, Frame.keeps_store (.refl _ F) rfl⟩) hclosure
    exact ⟨hclosureTidy, .function entry ⟨⟨other, h⟩, framed_of_tidy hclosureTidy⟩ henter hframed hleave
      (framedBody_of_tidy henter htidy hleave)⟩

theorem stays_framed : ∀ (index : Nat) (items : List (Expr Site)) {t : ScopeTable} {site : Site} {f : Fragment},
    Emits t site (emitItems index items) f →
      Stays f.inPlace ∧ ∃ parts, List.Forall₂ (Expr.Framed t) items parts ∧ f.Around parts
  | _, [], t, site, f, h => by
    rw [emitItems] at h
    obtain rfl := h.pure
    exact ⟨stays_nil, [], .nil, .nil []⟩
  | index, e :: rest, t, site, f, h => by
    rw [emitItems] at h
    obtain ⟨fe, _, he, k, rfl⟩ := h.fragmentCons (.expr e)
    obtain ⟨f₁, frest, h₁, hrest, rfl⟩ := k.fragmentCons (.fragmentCode (by simp))
    obtain ⟨store, hstore, rfl⟩ := h₁.fragmentCode
    obtain ⟨htidy, hframed⟩ := tidy_framed e he
    obtain ⟨hstays, parts, hparts, hf⟩ := stays_framed (index + 1) rest hrest.fragmentLast
    exact ⟨stays_element htidy hstore hstays, fe :: parts, .cons hframed hparts, (hf.code store).part fe⟩

end

end Expr

namespace Assignment

mutual

/-- The code of an assignment is framed, with the code of its clauses and its value. -/
theorem tidy_framed : ∀ (a : Assignment Site Header) {t : ScopeTable} {other : Site} {f : Fragment},
    Emits t other a.emit f → Tidy f.inPlace ∧ a.Framed t f
  | .mk head name value clauses, t, other, f, h => by
    have hwritten := h
    rw [emit] at h
    obtain ⟨ready, -, k⟩ := h.bind (.fresh _)
    obtain ⟨f₁, _, h₁, k₁, rfl⟩ := k.within.fragmentCons (.fragmentCode (by simp))
    obtain ⟨fc, _, hc, k₂, rfl⟩ := k₁.fragmentCons (.assignments head.own clauses)
    obtain ⟨fv, f₂, hv, h₂, rfl⟩ := k₂.fragmentCons (.expr value)
    obtain ⟨opening, hopening, rfl⟩ := h₁.fragmentCode
    obtain ⟨hclosing, haround⟩ := around_code h₂.fragmentLast
    obtain ⟨hstays, parts, hparts, hf⟩ := stays_framed head.own clauses hc
    obtain ⟨htidyV, hframedV⟩ := value.tidy_framed hv
    have htidy := tidy_assignment hopening hstays htidyV hclosing
    exact ⟨htidy, .mk ⟨⟨other, hwritten⟩, framed_of_tidy htidy⟩ hparts hframedV
      ((hf.append (haround.part fv)).code opening)⟩

theorem stays_framed (s : Nat) : ∀ (as : List (Assignment Site Header)) {t : ScopeTable} {site : Site} {f : Fragment},
    Emits t site (emitAll s as) f →
      Stays f.inPlace ∧ ∃ parts, List.Forall₂ (Assignment.Framed t) as parts ∧ f.Around parts
  | [], t, site, f, h => by
    rw [emitAll] at h
    obtain rfl := h.pure
    exact ⟨stays_nil, [], .nil, .nil []⟩
  | a :: rest, t, site, f, h => by
    rw [emitAll] at h
    obtain ⟨fa, _, ha, k, rfl⟩ := h.fragmentCons (.assignment a)
    obtain ⟨f₁, frest, h₁, hrest, rfl⟩ := k.fragmentCons (.within _ (.fragmentCode (by simp)))
    obtain ⟨store, hstore, rfl⟩ := h₁.within.fragmentCode
    obtain ⟨htidy, hframed⟩ := tidy_framed a ha
    obtain ⟨hstays, parts, hparts, hf⟩ := stays_framed s rest hrest.fragmentLast
    exact ⟨stays_clause htidy hstore hstays, fa :: parts, .cons hframed hparts, (hf.code store).part fa⟩

end

end Assignment

/-! ## Built-ins and the scope allocator -/

/-- The code of one level of a built-in: it finds its record in slot 0 and the return address in slot 1, never moves the
base and leaves slot 1 alone. -/
def FramedLevel (items : List Item) : Prop :=
  ∃ G, (Frame.entry [0, 1]).read items = some G ∧ G.moves = [] ∧ 1 ∉ G.stores

/-- The levels of a built-in from the one at `entry` on, the innermost one last. Each level is the code that is written
for it, and framed: an outer one makes the closure of the next one and goes back with it, and the innermost one
does the work. -/
inductive Builtin.FramedLevels (inner : Emit (List Item)) : Label → List (List Item) → Prop
  | innermost {t : ScopeTable} {site own : Site} {entry : Label} {level : List Item}
    (hcode : Emits t site (concat [placeLabel entry, within own inner, jump (rel 1)]) level)
    (h : FramedLevel level) : FramedLevels inner entry [level]
  | outer {t : ScopeTable} {site : Site} {entry next : Label} {level : List Item} {levels : List (List Item)}
    (hcode : Emits t site (concat [placeLabel entry, copy (.wordAt .ramPointer) (rel 2), writeToRam (.addressOf next),
      writeToRam (rel 0), copy (rel 2) (rel 0), jump (rel 1)]) level)
    (h : FramedLevel level) (hlevels : FramedLevels inner next levels) : FramedLevels inner entry (level :: levels)

/-- The words of a built-in whose value is at `location`: the value and, if that is a closure, one level of framed code
for each parameter. -/
inductive Builtin.Framed (b : Builtin) (location : Label) : List Item → Prop
  | value (h : b.params = []) : Framed b location [.labeled (.num 0) location]
  | closure (entry : Label) {levels : List (List Item)} (hlength : levels.length = b.params.length)
    (h : FramedLevels b.body entry levels) :
    Framed b location (.labeled (.addr entry) location :: .word (.addr .builtinScope) :: levels.flatten)

namespace Builtin

/-- The frame of a level, which never moves and keeps the return address. -/
structure Quiet (G : Frame) : Prop where
  given : G.given = [0, 1]
  moves : G.moves = []
  stores : 1 ∉ G.stores

instance (G : Frame) : Decidable (Quiet G) :=
  decidable_of_iff (G.given = [0, 1] ∧ G.moves = [] ∧ 1 ∉ G.stores)
    ⟨fun ⟨h₁, h₂, h₃⟩ => ⟨h₁, h₂, h₃⟩, fun h => ⟨h.given, h.moves, h.stores⟩⟩

theorem safe_slotOf {F : Frame} {name : String} (h : F.Known F.depth) : (slotOf name).Safe F := by
  simpa [slotOf, Operand.Safe] using h

theorem passes_fresh {F G : Frame} {name : String} {k : Label → Emit (List Item)} (h : ∀ l, F.Passes (k l) G) :
    F.Passes (fresh name >>= k) G := by
  intro t site items hitems
  obtain ⟨l, -, hitems⟩ := hitems.bind (.fresh _)
  exact h l hitems

theorem passes_compare (test : Test) (wanted : Bool) :
    (Frame.entry [0, 1]).Passes (compare test wanted) (((Frame.entry [0, 1]).store 0).store 0) := by
  refine passes_fresh fun flag => passes_fresh fun yes => passes_fresh fun done => ?_
  have hslot (name : String) : (slotOf name).Safe (.entry [0, 1]) := safe_slotOf (by decide)
  have hflag : (Frame.entry [0, 1]).Settles (.wordAt flag) (.entry [0, 1]) := Frame.settles_of_mode rfl nofun
  have hdecision (op : Opcode) (hop : op.hasTarget = true) (harity : op.arity = 3) :
      (Frame.entry [0, 1]).Passes (instruction op [slotOf "a", slotOf "b", .wordAt flag]) (.entry [0, 1]) :=
    .store hop harity (hslot "a") (hslot "b") hflag
  have hbranch (op : Opcode) (hop : op.hasTarget = false) (hmove : op ≠ .adjustBase) (harity : 2 = op.arity) :
      (Frame.entry [0, 1]).Passes (instruction op [.patched .immediate flag, .addressOf yes]) (.entry [0, 1]) :=
    .load op hop hmove harity (by simp)
  refine .cons ?_ (G := .entry [0, 1]) ?_ <| .cons ?_ (G := .entry [0, 1]) ?_ <|
    .cons (.copy _ _) (.copy (hslot "false") (Frame.settles_rel rfl (by decide))) <|
    .cons (.jump _) (.jump rfl) <|
    .cons (.placeLabel _) (.placeLabel _) <|
    .cons (.copy _ _) (.copy (safe_slotOf (by decide)) (Frame.settles_rel rfl (by decide))) <|
    .cons (.placeLabel _) (.placeLabel _) .nil
  · cases test <;> exact .instruction _ _
  · cases test with
    | equal => exact hdecision .equals rfl rfl
    | less => exact hdecision .lessThan rfl rfl
  · cases wanted <;> exact .instruction _ _
  · cases wanted with
    | true => exact hbranch .jumpIfTrue rfl nofun rfl
    | false => exact hbranch .jumpIfFalse rfl nofun rfl

theorem passes_longDivision (result : Int) (hresult : (⟨[0, 1], [], [4, 2, 5, 4, 3, 2]⟩ : Frame).Known result) :
    (Frame.entry [0, 1]).Passes (longDivision result) ⟨[0, 1], [], [0, 4, 2, 5, 4, 3, 2]⟩ := by
  have hslot : (⟨[0, 1], [], [4, 2, 5, 4, 3, 2]⟩ : Frame).Known (0 + result) := (Int.zero_add result).symm ▸ hresult
  refine passes_fresh fun head => passes_fresh fun exit => passes_fresh fun flag => ?_
  have hflag (F : Frame) : F.Settles (.wordAt flag) F := Frame.settles_of_mode rfl nofun
  exact .cons (.copy _ _) (.copy (safe_slotOf (by decide)) (Frame.settles_rel rfl (by decide))) <|
    .cons (.instruction _ _) (.store rfl rfl (safe_slotOf (by decide)) rfl (Frame.settles_rel rfl (by decide))) <|
    .cons (.copy _ _) (.copy rfl (Frame.settles_rel rfl (by decide))) <|
    .cons (.copy _ _) (.copy (safe_slotOf (by decide)) (Frame.settles_rel rfl (by decide))) <|
    .cons (.placeLabel _) (.placeLabel _) <|
    .cons (.instruction _ _) (.store rfl rfl (safe_rel.2 (by decide)) (safe_rel.2 (by decide)) (hflag _)) <|
    .cons (.instruction _ _) (.load .jumpIfTrue rfl nofun rfl (by simp)) <|
    .cons (.instruction _ _)
      (.store rfl rfl (safe_rel.2 (by decide)) (safe_rel.2 (by decide)) (Frame.settles_rel rfl (by decide))) <|
    .cons (.addTo _ _) (.addTo rfl (safe_rel.2 (by decide)) (Frame.settles_rel rfl (by decide))) <|
    .cons (.jump _) (.jump rfl) <|
    .cons (.placeLabel _) (.placeLabel _) <|
    .cons (.copy _ _) (.copy (safe_rel.2 hslot) (Frame.settles_rel rfl (by decide))) .nil

/-- The innermost level of a built-in is quiet, whatever the built-in does. -/
theorem passes_body (b : Builtin) : ∃ G, (Frame.entry [0, 1]).Passes b.body G ∧ Quiet G := by
  have hslot (name : String) : (slotOf name).Safe (.entry [0, 1]) := safe_slotOf (by decide)
  have hzero : (Frame.entry [0, 1]).Settles (rel 0) ((Frame.entry [0, 1]).store 0) :=
    Frame.settles_rel rfl (by decide)
  have hquiet : Quiet ((Frame.entry [0, 1]).store 0) := by decide
  have helement {tuple index : Operand} (htuple : tuple.Safe (.entry [0, 1])) (hindex : index.Safe (.entry [0, 1])) :
      (element tuple index).Safe (.entry [0, 1]) := ⟨by simp, by simp [Operand.mode], htuple, hindex⟩
  cases b with
  | unit =>
    refine ⟨.entry [0, 1], ?_, by decide⟩
    intro t site items h
    rw [body] at h
    obtain rfl := h.pure
    exact Frame.read_nil
  | print =>
    exact ⟨_, .cons (.instruction _ _) (.load .write rfl (by decide) rfl (by simpa using hslot "x")) <|
      .cons (.copy _ _) (.copy (hslot "_") hzero) .nil, hquiet⟩
  | succ => exact ⟨_, .store rfl rfl (hslot "n") rfl hzero, hquiet⟩
  | add => exact ⟨_, .store rfl rfl (hslot "a") (hslot "b") hzero, hquiet⟩
  | mult => exact ⟨_, .store rfl rfl (hslot "a") (hslot "b") hzero, hquiet⟩
  | truth => exact ⟨_, .copy (hslot "first") hzero, hquiet⟩
  | falsity => exact ⟨_, .copy (hslot "second") hzero, hquiet⟩
  | sequence => exact ⟨_, .copy (hslot "do") hzero, hquiet⟩
  | eq => exact ⟨_, passes_compare .equal true, by decide⟩
  | neq => exact ⟨_, passes_compare .equal false, by decide⟩
  | lt => exact ⟨_, passes_compare .less true, by decide⟩
  | sub =>
    refine ⟨((Frame.entry [0, 1]).store 2).store 0, ?_, by decide⟩
    exact .cons (.instruction _ _) (.store rfl rfl (hslot "b") rfl (Frame.settles_rel rfl (by decide))) <|
      .cons (.instruction _ _) (.store rfl rfl (safe_slotOf (by decide)) (safe_rel.2 (by decide))
        (Frame.settles_rel rfl (by decide))) .nil
  | get => exact ⟨_, .copy (helement (hslot "tup") ⟨by decide, rfl, hslot "pos"⟩) hzero, hquiet⟩
  | fst => exact ⟨_, .copy (helement (hslot "t") rfl) hzero, hquiet⟩
  | snd => exact ⟨_, .copy (helement (hslot "t") rfl) hzero, hquiet⟩
  | mod => exact ⟨_, passes_longDivision 2 (by decide), by decide⟩
  | div => exact ⟨_, passes_longDivision 4 (by decide), by decide⟩
  | input => exact ⟨_, .readTo hzero, hquiet⟩

/-- The levels stand one behind the other, one for each parameter. -/
theorem exists_levels {inner : Emit (List Item)} (hsteady : Steady inner)
    (hinner : ∃ G, (Frame.entry [0, 1]).Passes inner G ∧ Quiet G) {outer : Nat} {entry : Label} {param : String}
    {rest : List String} {t : ScopeTable} {site : Site} {items : List Item}
    (h : Emits t site (levels inner outer entry param rest) items) :
    ∃ levels, items = List.flatten levels ∧ levels.length = rest.length + 1 ∧ FramedLevels inner entry levels := by
  induction rest generalizing outer entry param t items with
  | nil =>
    obtain ⟨G, hpasses, hquiet⟩ := hinner
    have hreturn : G.Known (G.depth + 1) := by
      have hdepth : G.depth = 0 := congrArg List.sum hquiet.moves
      rw [hdepth]
      exact .inr ⟨by decide, .inr (by simp [hquiet.given])⟩
    have hlevel : ∀ site', (Frame.entry [0, 1]).Passes
        (concat [placeLabel entry, within site' inner, jump (rel 1)]) G := fun site' =>
      .cons (.placeLabel _) (.placeLabel _) <| .cons (.within _ hsteady) (.within hpasses) <|
        .cons (.jump _) (.jump (safe_rel.2 hreturn)) .nil
    have hcode := h.openScope.bindName
    exact ⟨[items], by simp, rfl, .innermost hcode ⟨G, hlevel _ hcode, hquiet.moves, hquiet.stores⟩⟩
  | cons next rest ih =>
    obtain ⟨below, -, hitems⟩ := h.openScope.bindName.bind (.fresh _)
    have hsplit : Emits _ site (concat ([placeLabel entry, copy (.wordAt .ramPointer) (rel 2),
        writeToRam (.addressOf below), writeToRam (rel 0), copy (rel 2) (rel 0), jump (rel 1)] ++
          [levels inner _ below next rest])) items := hitems
    obtain ⟨level, more, hlevel, hmore, rfl⟩ := hsplit.concat_append (.concat (by simp))
    obtain ⟨levels, rfl, hlength, hlevels⟩ := ih hmore.concat_last
    have hread : (Frame.entry [0, 1]).Passes (concat [placeLabel entry, copy (.wordAt .ramPointer) (rel 2),
        writeToRam (.addressOf below), writeToRam (rel 0), copy (rel 2) (rel 0), jump (rel 1)])
        (((Frame.entry [0, 1]).store 2).store 0) :=
      .cons (.placeLabel _) (.placeLabel _) <|
        .cons (.copy _ _) (.copy rfl (Frame.settles_rel rfl (by decide))) <|
        .cons (.writeToRam _) (.writeToRam rfl) <|
        .cons (.writeToRam _) (.writeToRam (safe_rel.2 (by decide))) <|
        .cons (.copy _ _) (.copy (safe_rel.2 (by decide)) (Frame.settles_rel rfl (by decide))) <|
        .cons (.jump _) (.jump (safe_rel.2 (by decide))) .nil
    exact ⟨level :: levels, rfl, congrArg (· + 1) hlength, .outer hlevel ⟨_, hread hlevel, rfl, by decide⟩ hlevels⟩

theorem framed_code {b : Builtin} {location : Label} {t : ScopeTable} {site : Site} {items : List Item}
    (h : Emits t site (b.code location) items) : b.Framed location items := by
  unfold code at h
  split at h
  · next hparams =>
    obtain rfl := h.pure
    exact .value hparams
  · next param rest hparams =>
    obtain ⟨entry, -, h⟩ := h.bind (.fresh _)
    obtain ⟨items, hitems, rfl⟩ := h.map
    obtain ⟨levels, rfl, hlength, hlevels⟩ := exists_levels (.builtinBody b) (passes_body b) hitems
    exact .closure entry (hlength.trans (congrArg List.length hparams).symm) hlevels

end Builtin

/-- The scope allocator finds its arguments in the slots from 0 to 2 and never moves the base. -/
def FramedAllocator (items : List Item) : Prop :=
  ∃ G, (Frame.entry [0, 1, 2]).read items = some G ∧ G.moves = []

theorem framed_allocator {items : List Item} (h : Emits t site Compile.allocator items) : FramedAllocator items := by
  have hread : (Frame.entry [0, 1, 2]).Passes Compile.allocator (((Frame.entry [0, 1, 2]).store 3).store 0) :=
    .cons (.placeLabel _) (.placeLabel _) <|
      .cons (.copy _ _) (.copy rfl (Frame.settles_rel rfl (by decide))) <|
      .cons (.writeToRam _) (.writeToRam (safe_rel.2 (by decide))) <|
      .cons (.addTo _ _) (.addTo (safe_rel.2 (by decide)) rfl (Frame.settles_of_mode rfl nofun)) <|
      .cons (.copy _ _) (.copy (safe_rel.2 (by decide)) (Frame.settles_rel rfl (by decide))) <|
      .cons (.jump _) (.jump (safe_rel.2 (by decide))) .nil
  exact ⟨_, hread h, rfl⟩

/-! ## Whole programs -/

namespace Compile

/-- The items of a program are framed code: that of its assignments in their order, each one with all its parts, with
the bodies of all functions in it, the scope allocator and the built-ins, each of them as it is written for the program.
Beside them there are only the instruction that sets the base up, the halt, the words of the records, the heap cursor
and the scope pointer under the stack. -/
def Framed (p : Program) (o : Options) (d : Draft) : Prop :=
  let site : Site := ⟨ScopeTable.globals, .generated⟩
  ∃ (start : List Item) (main : Fragment) (allocate : List Item) (declared : List (Builtin × Label))
      (parts : List Fragment),
    d.items = start ++ main.inPlace ++ halt ++ allocate ++ d.builtins.flatMap (·.2) ++
      .labeled (.num 0) .builtinScope :: declared.map (fun (_, l) => .word (.addr l)) ++
      .labeled (.addr .builtinScope) .globalScope ::
        (p.scopes.get ScopeTable.globals).names.map (fun _ => .word (.num 0)) ++
      main.hoisted ++
      [.labeled (.num o.ramBegin) .ramPointer, .labeled (.addr .globalScope) .stackBegin] ∧
    Emits (table p) site (adjustBase (.offset (.addressOf .stackBegin) (.int 2))) start ∧ start.length = 2 ∧
    Emits (table p) site (Assignment.emitAll ScopeTable.globals p.assignments) main ∧
    List.Forall₂ (Assignment.Framed (table p)) p.assignments parts ∧ main.Around parts ∧
    Emits (table p) site allocator allocate ∧ allocate.head? = some (.hanging .allocateScope) ∧
    FramedAllocator allocate ∧
    declared.map Prod.fst = Builtin.chosen p.usedNames ∧
    List.Forall₂ (fun x y => y.1 = x.1 ∧ (∃ t, (table p).Extends t ∧ Emits t site (x.1.code x.2) y.2) ∧
      x.1.Framed x.2 y.2) declared d.builtins

/-- All code of a program that is compiled, for whatever seed, keeps to its frame. -/
theorem program_framed {p : Program} {o : Options} {c : Compiled} (h : program p o = .ok c) :
    ∃ d s, runDraft p o = (.ok d, s) ∧ Assembly.link s.labels d.items = .ok c.assembly ∧ Framed p o d := by
  obtain ⟨d, s, hdraft, hlink, -⟩ := exists_of_program h
  obtain ⟨declared, start, main, allocate, hdeclared, ⟨hstart, hmain, hallocate, hbuiltins⟩, hitems⟩ :=
    exists_of_runDraft hdraft
  obtain ⟨-, parts, hparts, haround⟩ := Assignment.stays_framed ScopeTable.globals p.assignments hmain
  refine ⟨d, s, hdraft, hlink, start, main, allocate, declared, parts, hitems, hstart, ?_, hmain, hparts, haround,
    hallocate, ?_, framed_allocator hallocate, hdeclared, ?_⟩
  · obtain ⟨_, _, -, hrun⟩ := hstart
    cases hrun
    rfl
  · obtain ⟨_, rest, hlabel, -, rfl⟩ := Emits.concat_cons (.placeLabel _) hallocate
    obtain rfl := hlabel.placeLabel
    rfl
  · refine hbuiltins.imp ?_
    rintro x y ⟨hname, t, hextends, hcode⟩
    exact ⟨hname, ⟨t, hextends, hcode⟩, Builtin.framed_code hcode⟩

/-- A call of a function with a function in it, for a tuple with a variable of a clause in it. -/
def nested : String :=
  "main = (x => y => x) [k, 2] where k = 1"

theorem program_framed_nested :
    ∃ p c d s, Program.parse nested = .ok p ∧ program p ⟨some 7, 5000⟩ = .ok c ∧
      runDraft p ⟨some 7, 5000⟩ = (.ok d, s) ∧ Assembly.link s.labels d.items = .ok c.assembly ∧
      Framed p ⟨some 7, 5000⟩ d := by
  have h : (Program.parse nested).toOption.any (fun p =>
      (program p ⟨some 7, 5000⟩).toOption.any fun _ => true) = true := by decide +kernel
  obtain ⟨p, hparse, h⟩ := exists_ok_of_any h
  obtain ⟨c, hc, -⟩ := exists_ok_of_any h
  obtain ⟨d, s, hdraft, hlink, hframed⟩ := program_framed hc
  exact ⟨p, c, d, s, hparse, hc, hdraft, hlink, hframed⟩

end Compile

end Lamcode
