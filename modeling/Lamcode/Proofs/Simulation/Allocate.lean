import Lamcode.Proofs.Compile.Functions
import Lamcode.Proofs.Simulation.Holds

/-!
# Lamcode.Proofs.Simulation.Allocate — code without calls fills the heap word by word

The code of a tree without calls does to the memory of the machine what the walk over the tree does to the memory that
it holds: it runs to its end in a frame of which nothing below the base changes, with the value of the tree in slot 0.
The labels that writing the code handed out for function bodies are the ones whose addresses the walk puts in closures.
-/

namespace Lamcode.Simulation

open Layout Emit Operand Bump

variable {I : Image} {st : State} {mem : Int → Int} {v : Int} {q : Queue} {site : Site}

/-! ## What is to be shown -/

/-- The address of a label, or 0. -/
def Image.addressOf (I : Image) (l : Label) : Int :=
  ((I.layout.addresses[l.index]?).getD 0 : Nat)

/-- The function bodies that are still to come are those whose labels are behind `bs` among all labels. -/
def Awaits (I : Image) (all bs : List Label) (st : State) : Prop :=
  st.bodies = (all.drop bs.length).map I.addressOf

theorem Awaits.step {all bs bs' : List Label} {st' : State} {n : Nat} (h : Awaits I all bs st)
    (hbodies : st'.bodies = st.bodies.drop n) (hn : ∃ ls : List Label, ls.length = n ∧ bs' = bs ++ ls) :
    Awaits I all bs' st' := by
  obtain ⟨ls, rfl, rfl⟩ := hn
  rw [Awaits, hbodies, h, ← List.map_drop, List.drop_drop, List.length_append]

theorem Awaits.alloc {all bs : List Label} (h : Awaits I all bs st) (vs : List Int) : Awaits I all bs (st.alloc vs) :=
  (State.bodies_alloc vs st).trans h

/-- The code from `a` up to `a'` runs in the frame at `b` and leaves memory that holds the state; below the frame the
stack stays as it is. -/
structure Fills (I : Image) (q : Queue) (b : Int) (mem : Int → Int) (a a' : Nat) (st : State) (mem' : Int → Int) :
    Prop where
  runs : I.layout.Runs ((⟨b, mem, q⟩ : Data).config a) ((⟨b, mem', q⟩ : Data).config a')
  holds : Holds I st mem'
  below : ∀ {x}, I.OnStack x → x < b → mem' x = mem x

/-- The code does what the walk does, with this much of the stack and of the heap, and leaves the value in slot 0. -/
def Follows (I : Image) (all : List Label) (scopes : Scopes) (scope : Nat) (code : Emit Fragment) (stack heap : Nat)
    (walk : State → Int × State) : Prop :=
  ∀ {depth a a' h h' : Nat} {site : Site} {bs bs' : List Label} {st : State} {mem : Int → Int} {q : Queue},
    FragmentBetween I.layout I.scopes site bs bs' code a a' h h' → bs' <+: all →
    depth + stack ≤ I.room.stack → st.cursor + heap ≤ Memory.addressLimit →
    Awaits I all bs st → FrameReady I scopes scope st mem (I.base depth) →
    ∃ mem', Fills I q (I.base depth) mem a a' (walk st).2 mem' ∧ mem' (I.base depth) = (walk st).1

/-- The code of the expression does what the walk does. -/
def Allocates (I : Image) (all : List Label) (e : Expr Site) : Prop :=
  ∀ {scope : Nat} {scopes : Scopes}, e.callFree = true → e.ScopedIn I.scopes scope →
    Follows I all scopes scope e.emit e.stackWords e.heapWords (e.allocate scopes)

/-- The code of the elements of a tuple does what the walk does, where the address of the tuple is in slot -1. -/
def AllocatesItems (I : Image) (all : List Label) (items : List (Expr Site)) : Prop :=
  ∀ {depth scope index a a' h h' : Nat} {scopes : Scopes} {site : Site} {bs bs' : List Label} {st : State}
    {mem : Int → Int} {q : Queue} {y : Int},
    Expr.callFreeItems items = true → Expr.AllScopedIn I.scopes scope items →
    FragmentBetween I.layout I.scopes site bs bs' (Expr.emitItems index items) a a' h h' → bs' <+: all →
    depth + Expr.stackWordsOf items ≤ I.room.stack →
    st.cursor + Expr.heapWordsOf items ≤ Memory.addressLimit →
    Awaits I all bs st → FrameReady I scopes scope st mem (I.base depth) →
    mem (I.base depth - 1) = y → I.ramBegin ≤ y → scopes.record < y →
    y + Heap.tupleHeader + index + items.length ≤ st.cursor →
    ∃ mem', Fills I q (I.base depth) mem a a'
      (Expr.allocateItems scopes (y + Heap.tupleHeader + index) items st) mem'

/-- The code of the assignment does what the walk does. -/
def AllocatesAssignment (I : Image) (all : List Label) (x : Assignment Site Header) : Prop :=
  ∀ {scope : Nat} {scopes : Scopes}, x.callFree = true → x.ScopedIn I.scopes scope →
    Follows I all scopes scope x.emit x.stackWords x.heapWords (x.allocate scopes)

/-- The code of the assignments does what the walk does, where the innermost scope has their names. -/
def AllocatesAll (I : Image) (all : List Label) (xs : List (Assignment Site Header)) : Prop :=
  ∀ {depth scope a a' h h' : Nat} {names : List String} {r : Int} {outer : Scopes} {site : Site}
    {bs bs' : List Label} {st : State} {mem : Int → Int} {q : Queue},
    Assignment.callFreeAll xs = true → Assignment.AllScopedIn I.scopes scope xs →
    FragmentBetween I.layout I.scopes site bs bs' (Assignment.emitAll scope xs) a a' h h' → bs' <+: all →
    depth + Assignment.stackWordsOf xs ≤ I.room.stack →
    st.cursor + Assignment.heapWordsOf xs ≤ Memory.addressLimit →
    Awaits I all bs st → FrameReady I ((names, r) :: outer) scope st mem (I.base depth) →
    (∀ x ∈ xs, x.name ∈ names) →
    ∃ mem', Fills I q (I.base depth) mem a a' (Assignment.allocateAll ((names, r) :: outer) xs st) mem'

variable {all bs bs' : List Label} {scopes : Scopes} {scope depth a a' h h' : Nat}

/-! ## Expressions -/

/-- Code that puts a value in slot 0. -/
theorem exists_fills_slot {source : Operand} (hroom : depth + 1 ≤ I.room.stack) (hholds : Holds I st mem)
    (hs : Stands I.layout I.scopes site (concat [copy source (rel 0)]) a a')
    (hv : Yields I.layout I.scopes site.scope ⟨I.base depth, mem, q⟩ source v) :
    ∃ mem', Fills I q (I.base depth) mem a a' st mem' ∧ mem' (I.base depth) = v := by
  have hstack : I.OnStack (I.base depth) := Image.onStack_of_le hroom (by omega) (by omega)
  obtain ⟨mem', hfalls, hholds', hself, hrest⟩ := hholds.exists_slot hv (Int.add_zero _) hstack
  exact ⟨mem', ⟨(hfalls.cons .nil).runs hs, hholds', fun _ hx => hrest _ (by omega)⟩, hself⟩

theorem allocates_number (pos : Site) (n : Int) : Allocates I all (.number pos n) := by
  intro scope scopes _ _ depth a a' h h' site bs bs' st mem q hs _ hroom _ _ hready
  exact exists_fills_slot hroom hready.holds hs.stands.number (yields_int n)

theorem allocates_var (pos : Site) (name : String) : Allocates I all (.var pos name) := by
  intro scope scopes _ hscoped depth a a' h h' site bs bs' st mem q hs _ hroom _ _ hready
  obtain rfl : pos.scope = scope := hscoped
  have hstands := hs.stands.var
  obtain ⟨_, hcopy, -⟩ := hstands.concat_cons (.copy _ _)
  have hscope : I.OnStack (I.base depth - 2) := Image.onStack_of_le hroom (by omega) (by omega)
  -- code was written for the name, so the compiler resolved it
  obtain ⟨hnames, hplain⟩ := hready.names_named (q := q) hscope
    (hcopy.resolves_source name (List.mem_singleton_self name))
  have hword : mem (scopes.slot name) = st.word (scopes.slot name) :=
    hready.holds.word hplain.not_onStack hplain.ne_cursor
  obtain ⟨mem', hfills, hvalue⟩ := exists_fills_slot hroom hready.holds hstands hnames.yields
  exact ⟨mem', hfills, hvalue.trans hword⟩

/-- The label of a function body is the next one that is awaited. -/
theorem Awaits.head_eq {entry : Label} (hawaits : Awaits I all bs st) (hall : bs ++ [entry] <+: all) :
    st.bodies.headD 0 = I.addressOf entry := by
  obtain ⟨rest, rfl⟩ := hall
  rw [hawaits, List.append_assoc, List.drop_left]
  rfl

theorem allocates_function (pos : Site) (param : String) (body : Expr Site) :
    Allocates I all (.function pos param body) := by
  intro scope scopes _ _ depth a a' h h' site bs bs' st mem q hs hall hroom hheap hawaits hready
  obtain ⟨entry, inner, hinner, hentry, hcode, -⟩ := hs.function
  obtain ⟨ls, -, rfl⟩ := Adds.expr body hinner
  have hhead : st.bodies.headD 0 = h := by
    rw [hawaits.head_eq ((List.prefix_append _ ls).trans hall), Image.addressOf, hentry, Option.getD_some]
  have hroom' : depth + 1 ≤ I.room.stack := hroom
  have hlimit : st.cursor + 2 ≤ Memory.addressLimit := hheap
  have hstack : I.OnStack (I.base depth) := Image.onStack_of_le hroom' (by omega) (by omega)
  have hscope : I.OnStack (I.base depth - 2) := Image.onStack_of_le hroom' (by omega) (by omega)
  -- the address of the closure, then its code and its record
  obtain ⟨mem₁, hfalls₁, hholds₁, hself₁, hrest₁⟩ :=
    hready.holds.exists_slot (q := q) hready.holds.yields_cursor (Int.add_zero (I.base depth)) hstack
  obtain ⟨mem₂, hfalls₂, hholds₂, hkeep₂⟩ := hholds₁.exists_push (yields_addressOf hentry) (by omega)
  have hrecord : mem₂ (I.base depth - 2) = scopes.record := by
    rw [hkeep₂ _ hscope, hrest₁ _ (by omega), hready.record]
  obtain ⟨mem₃, hfalls₃, hholds₃, hkeep₃⟩ := hholds₂.exists_push
    (Holds.yields_scope hscope hrecord) (by rw [State.cursor_push]; omega)
  refine ⟨mem₃, ⟨(hfalls₁.cons (hfalls₂.cons (hfalls₃.cons .nil))).runs hcode, ?_, fun hx hlt => ?_⟩, ?_⟩
  · rw [Expr.allocate, hhead]
    exact hholds₃.withBodies _
  · rw [hkeep₃ _ hx, hkeep₂ _ hx, hrest₁ _ (by omega)]
  · rw [hkeep₃ _ hstack, hkeep₂ _ hstack, hself₁, Expr.allocate]

theorem allocates_group (pos : Site) {e : Expr Site} (he : Allocates I all e) : Allocates I all (.group pos e) := by
  intro scope scopes hfree hscoped depth a a' h h' site bs bs' st mem q hs hall hroom hheap hawaits hready
  exact he hfree hscoped.2 hs.group hall hroom hheap hawaits hready

/-- The code in front of the elements of a tuple puts it on the heap, and its address in slot -1 of the frame two
words up. -/
theorem exists_opened {items : List (Expr Site)} (hroom : depth + 2 ≤ I.room.stack)
    (hheap : st.cursor + (1 + items.length : Nat) ≤ Memory.addressLimit)
    (hready : FrameReady I scopes scope st mem (I.base depth))
    (hs : Stands I.layout I.scopes site (concat ([copy (rel (-2)) (rel 0), moveStack 2,
      copy (.wordAt .ramPointer) (rel (-1)), writeToRam (.int items.length)] ++
        if items.isEmpty then [] else [addTo (.int items.length) (.wordAt .ramPointer)])) a a') :
    ∃ mem', I.layout.Runs ((⟨I.base depth, mem, q⟩ : Data).config a)
        ((⟨I.base depth + 2, mem', q⟩ : Data).config a') ∧
      FrameReady I scopes scope (st.alloc (items.length :: List.replicate items.length 0)) mem' (I.base depth + 2) ∧
      mem' (I.base depth + 1) = st.cursor ∧ ∀ x, I.OnStack x → x < I.base depth → mem' x = mem x := by
  have hscope : I.OnStack (I.base depth - 2) := Image.onStack_of_le hroom (by omega) (by omega)
  have hstack : I.OnStack (I.base depth) := Image.onStack_of_le hroom (by omega) (by omega)
  have hstack₁ : I.OnStack (I.base depth + 1) := Image.onStack_of_le hroom (by omega) (by omega)
  obtain ⟨mem₁, hfalls₁, hholds₁, hself₁, hrest₁⟩ := hready.holds.exists_slot (q := q)
    (Holds.yields_scope hscope hready.record) (Int.add_zero (I.base depth)) hstack
  obtain ⟨mem₂, hfalls₂, hholds₂, hself₂, hrest₂⟩ := hholds₁.exists_slot (q := q) (b := I.base depth + 2) (k := -1)
    hholds₁.yields_cursor (show I.base depth + 2 + -1 = I.base depth + 1 by omega) hstack₁
  obtain ⟨mem₃, hfalls₃, hholds₃, hkeep₃⟩ := hholds₂.exists_push (yields_int items.length) (by omega)
  have hopens : Falls I.layout I.scopes site (concat [copy (rel (-2)) (rel 0), moveStack 2,
      copy (.wordAt .ramPointer) (rel (-1)), writeToRam (.int items.length)]) ⟨I.base depth, mem, q⟩
      ⟨I.base depth + 2, mem₃, q⟩ :=
    hfalls₁.cons ((hholds₁.falls_move rfl).cons (hfalls₂.cons (hfalls₃.cons .nil)))
  -- there is nothing to reserve for the empty tuple
  obtain ⟨mem₄, hfalls₄, hholds₄, hkeep₄⟩ : ∃ mem₄, Falls I.layout I.scopes site
      (concat (if items.isEmpty then [] else [addTo (.int items.length) (.wordAt .ramPointer)]))
      ⟨I.base depth + 2, mem₃, q⟩ ⟨I.base depth + 2, mem₄, q⟩ ∧
      Holds I (st.alloc (items.length :: List.replicate items.length 0)) mem₄ ∧
      ∀ y, I.OnStack y → mem₄ y = mem₃ y := by
    cases items with
    | nil => exact ⟨mem₃, .nil, hholds₃, fun _ _ => rfl⟩
    | cons e rest =>
      obtain ⟨mem₄, hfalls₄, hholds₄, hkeep₄⟩ := hholds₃.exists_reserve (q := q) (b := I.base depth + 2)
        (yields_int (e :: rest).length) (by rw [State.cursor_push]; push_cast at hheap ⊢; omega)
      exact ⟨mem₄, hfalls₄.cons .nil, hholds₄, hkeep₄⟩
  have hkept : ∀ y, I.OnStack y → mem₄ y = mem₂ y := fun y hy => (hkeep₄ y hy).trans (hkeep₃ y hy)
  refine ⟨mem₄, (hopens.append hfalls₄).runs hs, ⟨hholds₄, ?_, ?_⟩, ?_, fun x hx hlt => ?_⟩
  · refine hready.pictures.later hready.holds.ramBegin_le ?_ fun x hx => State.word_alloc_of_lt _ hx
    rw [State.cursor_alloc]
    omega
  · rw [show I.base depth + 2 - 2 = I.base depth by omega, hkept _ hstack, hrest₂ _ (by omega), hself₁]
  · rw [hkept _ hstack₁, hself₂]
  · rw [hkept _ hx, hrest₂ _ (by omega), hrest₁ _ (by omega)]

theorem allocates_tuple (pos : Site) {items : List (Expr Site)} (hitems : AllocatesItems I all items) :
    Allocates I all (.tuple pos items) := by
  intro scope scopes hfree hscoped depth a a' h h' site bs bs' st mem q hs hall hroom hheap hawaits hready
  rw [Expr.stackWords] at hroom
  rw [Expr.heapWords] at hheap
  obtain ⟨a₁, a₂, hopen, hitemsAt, hclose⟩ := hs.tuple
  have hstack : I.OnStack (I.base depth) := Image.onStack_of_le hroom (by omega) (by omega)
  have hstack₁ : I.OnStack (I.base depth + 1) := Image.onStack_of_le hroom (by omega) (by omega)
  have hbase : I.base (depth + 2) = I.base depth + 2 := Image.base_add depth 2
  obtain ⟨mem₁, hruns₁, hready₁, haddress, hbelow₁⟩ :=
    exists_opened (q := q) (by omega) (by omega) hready hopen
  have hrecord := hready.pictures.record_lt hready.holds.ramBegin_le
  have hcursor := State.cursor_alloc_block items.length items.length st
  rw [← hbase] at hready₁
  obtain ⟨mem₂, hfills⟩ := hitems (q := q) hfree hscoped.2 hitemsAt hall (by omega)
    (by omega) (hawaits.alloc _) hready₁
    (by rw [hbase, show I.base depth + 2 - 1 = I.base depth + 1 by omega]; exact haddress)
    hready.holds.ramBegin_le hrecord (by simp only [Heap.tupleHeader]; omega)
  rw [hbase] at hfills
  obtain ⟨mem₃, hfalls₃, hholds₃, hself₃, hrest₃⟩ := hfills.holds.exists_return (q := q) hstack rfl hstack₁
  refine ⟨mem₃, ⟨(hruns₁.trans hfills.runs).trans (hfalls₃.runs hclose), ?_, fun hx hlt => ?_⟩, ?_⟩
  · rw [Expr.allocate]
    simpa using hholds₃
  · rw [hrest₃ _ (by omega), hfills.below hx (by omega), hbelow₁ _ hx hlt]
  · rw [hself₃, hfills.below hstack₁ (by omega), haddress, Expr.allocate]

theorem allocatesItems_nil : AllocatesItems I all [] := by
  intro depth scope index a a' h h' scopes site bs bs' st mem q y _ _ hs _ _ _ _ hready _ _ _ _
  rw [hs.stands.items_nil]
  exact ⟨mem, .refl _, hready.holds, fun _ _ => rfl⟩

theorem allocatesItems_cons {e : Expr Site} {rest : List (Expr Site)} (he : Allocates I all e)
    (hrest : AllocatesItems I all rest) : AllocatesItems I all (e :: rest) := by
  intro depth scope index a a' h h' scopes site bs bs' st mem q y hfree hscoped hs hall hroom hheap hawaits hready
    hy hram hrecord hfits
  rw [Expr.stackWordsOf] at hroom
  rw [Expr.heapWordsOf] at hheap
  rw [List.length_cons] at hfits
  obtain ⟨hfreeHead, hfreeRest⟩ := Bool.and_eq_true_iff.1 hfree
  obtain ⟨a₁, a₂, h₁, bs₁, heAt, hstore, hrestAt⟩ := hs.items_cons
  obtain ⟨ls, -, rfl⟩ := hrestAt.exists_bodies (.exprItems _ rest)
  have hroom' : depth + 1 ≤ I.room.stack := by
    have := e.stackWords_pos
    omega
  have hstack : I.OnStack (I.base depth) := Image.onStack_of_le hroom' (by omega) (by omega)
  have haddress : I.OnStack (I.base depth - 1) := Image.onStack_of_le hroom' (by omega) (by omega)
  have hscope : I.OnStack (I.base depth - 2) := Image.onStack_of_le hroom' (by omega) (by omega)
  obtain ⟨mem₁, hfills₁, hvalue⟩ := he (q := q) hfreeHead hscoped.1 heAt ((List.prefix_append _ ls).trans hall)
    (by omega) (by omega) hawaits hready
  have hcursor := e.cursor_allocate scopes st
  have hpictures := hready.pictures.later hready.holds.ramBegin_le (by omega) fun x hx => e.word_allocate scopes hx
  -- the element is stored in its word of the tuple
  have hplain : I.Plain (y + Heap.tupleHeader + index) :=
    Image.plain_of_heap (by omega) (by have := hready.holds.cursor_le; omega)
  have hfrozen : I.layout.frozen (y + Heap.tupleHeader + index) = none :=
    Image.frozen_eq_none (by have := I.stackBegin_lt_ramBegin; omega)
  have hy₁ : mem₁ (I.base depth - 1) = y := (hfills₁.below haddress (by omega)).trans hy
  have htarget : Names I.layout I.scopes site.scope ⟨I.base depth, mem₁, q⟩
      (.offset (.spill (rel (-1))) (.int (Heap.tupleHeader + index))) (y + Heap.tupleHeader + index) :=
    names_spilled (d := ⟨I.base depth, mem₁, q⟩) haddress.free hy₁ (by omega) hplain.free
  obtain ⟨mem₂, hfalls₂, hholds₂, hkeep₂⟩ := hfills₁.holds.exists_store
    (Holds.yields_slot (Int.add_zero _) hstack hvalue) htarget hplain hfrozen (by omega)
  have hready₂ : FrameReady I scopes scope ((e.allocate scopes st).2.store (y + Heap.tupleHeader + index)
      (e.allocate scopes st).1) mem₂ (I.base depth) := by
    refine ⟨hholds₂, hpictures.store (by omega) _, ?_⟩
    rw [hkeep₂ _ hscope, hfills₁.below hscope (by omega), hready.record]
  obtain ⟨mem₃, hfills₃⟩ := hrest (q := q) (y := y) hfreeRest hscoped.2 hrestAt hall (by omega)
    (by rw [State.cursor_store]; omega)
    (hawaits.step (by rw [State.bodies_store, e.bodies_allocate scopes hfreeHead]) (heAt.exists_bodies (.expr e)))
    hready₂ (by rw [hkeep₂ _ haddress, hy₁]) hram hrecord (by rw [State.cursor_store]; omega)
  refine ⟨mem₃, (hfills₁.runs.trans ((hfalls₂.cons .nil).runs hstore)).trans hfills₃.runs, ?_, fun hx hlt => ?_⟩
  · rw [Expr.allocateItems, show y + Heap.tupleHeader + index + 1 = y + Heap.tupleHeader + (index + 1 : Nat) by omega]
    exact hfills₃.holds
  · rw [hfills₃.below hx hlt, hkeep₂ _ hx, hfills₁.below hx hlt]

mutual

/-- The code of every expression without calls does what the walk does. -/
theorem allocates : ∀ e : Expr Site, Allocates I all e
  | .number pos n => allocates_number pos n
  | .var pos name => allocates_var pos name
  | .tuple pos items => allocates_tuple pos (allocatesItems items)
  | .call _ _ _ => fun hfree => nomatch hfree
  | .function pos param body => allocates_function pos param body
  | .group pos e => allocates_group pos (allocates e)

theorem allocatesItems : ∀ items : List (Expr Site), AllocatesItems I all items
  | [] => allocatesItems_nil
  | e :: rest => allocatesItems_cons (allocates e) (allocatesItems rest)

end

/-! ## Assignments -/

/-- The allocator puts a record of `n` slots inside the one in slot 1 on the heap, leaves its address in slot 0 and
goes to the address in slot 2. -/
theorem exists_allocated {n ready : Nat} {r : Int} (hroom : depth + 4 ≤ I.room.stack)
    (hheap : st.cursor + (1 + n : Nat) ≤ Memory.addressLimit) (hholds : Holds I st mem)
    (hn : mem (I.base depth) = n) (hr : mem (I.base depth + 1) = r) (hready : mem (I.base depth + 2) = ready)
    (hlt : ready < Memory.addressLimit) :
    ∃ mem', Fills I q (I.base depth) mem I.allocator ready (st.alloc (r :: List.replicate n 0)) mem' ∧
      mem' (I.base depth) = st.cursor := by
  obtain ⟨site, a, hstands⟩ := I.allocator_stands
  have hstack : I.OnStack (I.base depth) := Image.onStack_of_le hroom (by omega) (by omega)
  have hstack₁ : I.OnStack (I.base depth + 1) := Image.onStack_of_le hroom (by omega) (by omega)
  have hstack₂ : I.OnStack (I.base depth + 2) := Image.onStack_of_le hroom (by omega) (by omega)
  have hstack₃ : I.OnStack (I.base depth + 3) := Image.onStack_of_le hroom (by omega) (by omega)
  -- slot 3 keeps the address of the record while the cursor moves over it
  obtain ⟨mem₁, hfalls₁, hholds₁, hself₁, hrest₁⟩ := hholds.exists_slot (q := q) hholds.yields_cursor rfl hstack₃
  obtain ⟨mem₂, hfalls₂, hholds₂, hkeep₂⟩ := hholds₁.exists_push (q := q) (b := I.base depth)
    (Holds.yields_slot rfl hstack₁ ((hrest₁ _ (by omega)).trans hr)) (by omega)
  have hn₂ : mem₂ (I.base depth) = n := by rw [hkeep₂ _ hstack, hrest₁ _ (by omega), hn]
  obtain ⟨mem₃, hfalls₃, hholds₃, hkeep₃⟩ := hholds₂.exists_reserve (q := q) (b := I.base depth)
    (Holds.yields_slot (Int.add_zero _) hstack hn₂) (by rw [State.cursor_push]; omega)
  have hkept : ∀ y, I.OnStack y → mem₃ y = mem₁ y := fun y hy => (hkeep₃ y hy).trans (hkeep₂ y hy)
  obtain ⟨mem₄, hfalls₄, hholds₄, hself₄, hrest₄⟩ := hholds₃.exists_slot (q := q)
    (Holds.yields_slot rfl hstack₃ ((hkept _ hstack₃).trans hself₁)) (Int.add_zero _) hstack
  have hready₄ : mem₄ (I.base depth + 2) = ready := by
    rw [hrest₄ _ (by omega), hkept _ hstack₂, hrest₁ _ (by omega), hready]
  have hexits : Exits I.layout I.scopes site _ ⟨I.base depth, mem, q⟩
      ((⟨I.base depth, mem₄, q⟩ : Data).config ready) :=
    .cons hfalls₁ (.cons hfalls₂ (.cons hfalls₃ (.cons hfalls₄
      (.last (.jump _) (exits_jump hholds₄.loaded (Holds.yields_slot rfl hstack₂ hready₄) hlt)))))
  refine ⟨mem₄, ⟨hexits.runs hstands, hholds₄, fun hx hlt' => ?_⟩, hself₄⟩
  rw [hrest₄ _ (by omega), hkept _ hx, hrest₁ _ (by omega)]

/-- The code in front of the clauses puts their record on the heap and moves two words up, so that its address is in
slot -2. -/
theorem exists_entered_record {n a₁ a₂ : Nat} {ready : Label} (hroom : depth + 4 ≤ I.room.stack)
    (hheap : st.cursor + (1 + n : Nat) ≤ Memory.addressLimit) (hready : FrameReady I scopes scope st mem (I.base depth))
    (hcall : Stands I.layout I.scopes site (concat [copy (.int n) (rel 0), copy (rel (-2)) (rel 1),
      copy (.addressOf ready) (rel 2), jump (.addressOf .allocateScope)]) a a₁)
    (haddress : I.layout.addresses[ready.index]? = some a₁)
    (henter : Stands I.layout I.scopes site (concat [moveStack 2]) a₁ a₂) :
    ∃ mem', I.layout.Runs ((⟨I.base depth, mem, q⟩ : Data).config a)
        ((⟨I.base depth + 2, mem', q⟩ : Data).config a₂) ∧
      Holds I (st.alloc (scopes.record :: List.replicate n 0)) mem' ∧ mem' (I.base depth) = st.cursor ∧
      ∀ x, I.OnStack x → x < I.base depth → mem' x = mem x := by
  have hscope : I.OnStack (I.base depth - 2) := Image.onStack_of_le hroom (by omega) (by omega)
  have hstack : I.OnStack (I.base depth) := Image.onStack_of_le hroom (by omega) (by omega)
  have hstack₁ : I.OnStack (I.base depth + 1) := Image.onStack_of_le hroom (by omega) (by omega)
  have hstack₂ : I.OnStack (I.base depth + 2) := Image.onStack_of_le hroom (by omega) (by omega)
  obtain ⟨mem₁, hfalls₁, hholds₁, hself₁, hrest₁⟩ := hready.holds.exists_slot (q := q)
    (yields_int n) (Int.add_zero (I.base depth)) hstack
  obtain ⟨mem₂, hfalls₂, hholds₂, hself₂, hrest₂⟩ := hholds₁.exists_slot (q := q)
    (Holds.yields_scope hscope ((hrest₁ _ (by omega)).trans hready.record)) rfl hstack₁
  obtain ⟨mem₃, hfalls₃, hholds₃, hself₃, hrest₃⟩ := hholds₂.exists_slot (q := q)
    (yields_addressOf haddress) rfl hstack₂
  have hexits : Exits I.layout I.scopes site _ ⟨I.base depth, mem, q⟩
      ((⟨I.base depth, mem₃, q⟩ : Data).config I.allocator) :=
    .cons hfalls₁ (.cons hfalls₂ (.cons hfalls₃ (.last (.jump _)
      (exits_jump hholds₃.loaded (yields_addressOf I.address_allocator) (I.address_lt I.address_allocator)))))
  obtain ⟨mem₄, hfills, hrecord⟩ := exists_allocated (q := q) hroom hheap hholds₃
    (by rw [hrest₃ _ (by omega), hrest₂ _ (by omega), hself₁]) (by rw [hrest₃ _ (by omega), hself₂]) hself₃
    (I.address_lt haddress)
  have hmove : Falls I.layout I.scopes site (concat [moveStack 2]) ⟨I.base depth, mem₄, q⟩
      ⟨I.base depth + 2, mem₄, q⟩ := (hfills.holds.falls_move rfl).cons .nil
  refine ⟨mem₄, ((hexits.runs hcall).trans hfills.runs).trans (hmove.runs henter), hfills.holds, hrecord,
    fun x hx hlt => ?_⟩
  rw [hfills.below hx hlt, hrest₃ _ (by omega), hrest₂ _ (by omega), hrest₁ _ (by omega)]

/-- The scopes around the clauses of an assignment, when their record has been allocated. -/
theorem Pictures.alloc_block {names : List String} {own : Nat} (h : Pictures I st scopes scope)
    (hram : I.ramBegin ≤ st.cursor) (hown : I.scopes.get own = ⟨some scope, none, names⟩) (hlt : scope < own) :
    Pictures I (st.alloc (scopes.record :: List.replicate names.length 0)) ((names, st.cursor) :: scopes) own := by
  have hcursor := State.cursor_alloc_block scopes.record names.length st
  refine .block hown hlt hram ?_ (State.word_alloc_cons ..) (h.record_lt hram) (h.later hram ?_ ?_)
  · rw [hcursor]
    simp only [Heap.recordHeader]
    omega
  · omega
  · exact fun x hx => State.word_alloc_of_lt _ hx

/-- Running the clauses of an assignment leaves the records around them alone. -/
theorem Pictures.allocateAll {names : List String} {r : Int} {xs : List (Assignment Site Header)}
    (h : Pictures I st ((names, r) :: scopes) scope) (hram : I.ramBegin ≤ st.cursor)
    (hnames : ∀ x ∈ xs, x.name ∈ names) :
    Pictures I (Assignment.allocateAll ((names, r) :: scopes) xs st) ((names, r) :: scopes) scope := by
  have hrecord : r < st.cursor := h.record_lt hram
  -- the slots of the names are all behind the first word of the record, which points outwards
  refine h.mono (by rw [Assignment.cursor_allocateAll]; omega) fun y _ (hle : y ≤ r) => ?_
  refine Assignment.word_allocateAll _ xs (by omega) fun x hx => ?_
  have hslot := (h.own hram (hnames x hx)).2.2.1
  omega

theorem allocatesAssignment_mk (head : Header) (name : String) {value : Expr Site}
    {clauses : List (Assignment Site Header)} (hclauses : AllocatesAll I all clauses) :
    AllocatesAssignment I all (.mk head name value clauses) := by
  intro scope scopes hfree hscoped depth a a' h h' site bs bs' st mem q hs hall hroom hheap hawaits hready
  rw [Assignment.stackWords] at hroom
  rw [Assignment.heapWords] at hheap
  obtain ⟨hfreeClauses, hfreeValue⟩ := Bool.and_eq_true_iff.1 hfree
  obtain ⟨-, hown, hlt, hvalueScoped, hclausesScoped⟩ := hscoped
  obtain ⟨ready, a₁, a₂, a₃, a₄, h₁, bs₁, hcall, haddress, henter, hclausesAt, hvalueAt, hleave⟩ := hs.assignment
  obtain ⟨ls, -, rfl⟩ := hvalueAt.exists_bodies (.expr value)
  have hroom' : depth + 4 ≤ I.room.stack := by omega
  have hstack : I.OnStack (I.base depth) := Image.onStack_of_le hroom' (by omega) (by omega)
  have hstack₂ : I.OnStack (I.base depth + 2) := Image.onStack_of_le hroom' (by omega) (by omega)
  have hbase : I.base (depth + 2) = I.base depth + 2 := Image.base_add depth 2
  have hslot : I.base (depth + 2) - 2 = I.base depth := by omega
  obtain ⟨mem₁, hruns₁, hholds₁, hrecord₁, hbelow₁⟩ :=
    exists_entered_record (q := q) hroom' (by omega) hready hcall haddress henter
  -- the new record is around clauses and value
  have hpictures := hready.pictures.alloc_block hready.holds.ramBegin_le hown hlt
  rw [List.length_map] at hpictures
  have hnames : ∀ x ∈ clauses, x.name ∈ clauses.map Assignment.name := fun x hx => List.mem_map_of_mem hx
  have hcursor := State.cursor_alloc_block scopes.record clauses.length st
  have hawaits₁ := hawaits.alloc (scopes.record :: List.replicate clauses.length 0)
  have hready₁ : FrameReady I _ head.own _ mem₁ (I.base (depth + 2)) :=
    ⟨hholds₁, hpictures, (congrArg mem₁ hslot).trans hrecord₁⟩
  obtain ⟨mem₂, hfills₂⟩ := hclauses (q := q) hfreeClauses hclausesScoped hclausesAt
    ((List.prefix_append _ ls).trans hall) (by omega) (by omega) hawaits₁ hready₁ hnames
  have hrecord₂ : mem₂ (I.base depth) = st.cursor := by rw [hfills₂.below hstack (by omega), hrecord₁]
  have hready₂ : FrameReady I _ head.own _ mem₂ (I.base (depth + 2)) :=
    ⟨hfills₂.holds, hpictures.allocateAll hholds₁.ramBegin_le hnames, (congrArg mem₂ hslot).trans hrecord₂⟩
  obtain ⟨mem₃, hfills₃, hvalue⟩ := allocates value (q := q) hfreeValue hvalueScoped hvalueAt hall (by omega)
    (by rw [Assignment.cursor_allocateAll]; omega)
    (hawaits₁.step (Assignment.bodies_allocateAll _ clauses hfreeClauses)
      (hclausesAt.exists_bodies (.assignments _ clauses))) hready₂
  rw [hbase] at hfills₂ hfills₃ hvalue
  obtain ⟨mem₄, hfalls₄, hholds₄, hself₄, hrest₄⟩ := hfills₃.holds.exists_return (q := q) hstack rfl hstack₂
  refine ⟨mem₄, ⟨(hruns₁.trans hfills₂.runs).trans (hfills₃.runs.trans (hfalls₄.runs hleave)), ?_, fun hx hlt' => ?_⟩,
    ?_⟩
  · rw [Assignment.allocate]
    exact hholds₄
  · rw [hrest₄ _ (by omega), hfills₃.below hx (by omega), hfills₂.below hx (by omega), hbelow₁ _ hx hlt']
  · rw [hself₄, hvalue, Assignment.allocate]

theorem allocatesAll_nil : AllocatesAll I all [] := by
  intro depth scope a a' h h' names r outer site bs bs' st mem q _ _ hs _ _ _ _ hready _
  rw [hs.stands.assignments_nil]
  exact ⟨mem, .refl _, hready.holds, fun _ _ => rfl⟩

theorem allocatesAll_cons {x : Assignment Site Header} {rest : List (Assignment Site Header)}
    (hx : AllocatesAssignment I all x) (hrest : AllocatesAll I all rest) : AllocatesAll I all (x :: rest) := by
  intro depth scope a a' h h' names r outer site bs bs' st mem q hfree hscoped hs hall hroom hheap hawaits hready hnames
  rw [Assignment.stackWordsOf] at hroom
  rw [Assignment.heapWordsOf] at hheap
  obtain ⟨hfreeHead, hfreeRest⟩ := Bool.and_eq_true_iff.1 hfree
  obtain ⟨a₁, a₂, h₁, bs₁, hxAt, hstore, hrestAt⟩ := hs.assignments_cons
  obtain ⟨ls, -, rfl⟩ := hrestAt.exists_bodies (.assignments _ rest)
  have hroom' : depth + 4 ≤ I.room.stack := by
    have := x.four_le_stackWords
    omega
  have hstack : I.OnStack (I.base depth) := Image.onStack_of_le hroom' (by omega) (by omega)
  have hscope : I.OnStack (I.base depth - 2) := Image.onStack_of_le hroom' (by omega) (by omega)
  obtain ⟨mem₁, hfills₁, hvalue⟩ := hx (q := q) hfreeHead hscoped.1 hxAt ((List.prefix_append _ ls).trans hall)
    (by omega) (by omega) hawaits hready
  have hcursor := x.cursor_allocate ((names, r) :: outer) st
  have hready₁ : FrameReady I ((names, r) :: outer) scope (x.allocate ((names, r) :: outer) st).2 mem₁
      (I.base depth) :=
    ⟨hfills₁.holds, hready.pictures.later hready.holds.ramBegin_le (by omega) fun y hy => x.word_allocate _ hy,
      (hfills₁.below hscope (by omega)).trans hready.record⟩
  -- the value is stored in the slot of the name
  obtain ⟨hres, hfrozen, hbehind, hlt⟩ :=
    hready₁.pictures.own hready₁.holds.ramBegin_le (hnames x (List.mem_cons_self ..))
  obtain ⟨htarget, hplain⟩ : Names I.layout I.scopes (Site.mk scope x.mark.pos).scope _ _ _ ∧ _ :=
    hready₁.names_named (q := q) hscope hres
  obtain ⟨mem₂, hfalls₂, hholds₂, hkeep₂⟩ := hready₁.holds.exists_store
    (Holds.yields_slot (Int.add_zero _) hstack hvalue) htarget hplain hfrozen hlt
  obtain ⟨mem₃, hfills₃⟩ := hrest (q := q) hfreeRest hscoped.2 hrestAt hall (by omega)
    (by rw [State.cursor_store]; omega)
    (hawaits.step (by rw [State.bodies_store, x.bodies_allocate _ hfreeHead]) (hxAt.exists_bodies (.assignment x)))
    ⟨hholds₂, hready₁.pictures.store hbehind _, (hkeep₂ _ hscope).trans hready₁.record⟩
    fun y hy => hnames y (List.mem_cons_of_mem _ hy)
  refine ⟨mem₃, (hfills₁.runs.trans ((hfalls₂.cons .nil).runs hstore)).trans hfills₃.runs, ?_, fun hy hlt' => ?_⟩
  · rw [Assignment.allocateAll]
    exact hfills₃.holds
  · rw [hfills₃.below hy hlt', hkeep₂ _ hy, hfills₁.below hy hlt']

mutual

theorem allocatesAssignment : ∀ x : Assignment Site Header, AllocatesAssignment I all x
  | .mk head name _ clauses => allocatesAssignment_mk head name (allocatesAll clauses)

/-- The code of all assignments without calls does what the walk does. -/
theorem allocatesAll : ∀ xs : List (Assignment Site Header), AllocatesAll I all xs
  | [] => allocatesAll_nil
  | x :: rest => allocatesAll_cons (allocatesAssignment x) (allocatesAll rest)

end

end Lamcode.Simulation
