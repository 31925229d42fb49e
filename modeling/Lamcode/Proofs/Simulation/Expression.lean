import Lamcode.Proofs.Simulation.Step

/-!
# Lamcode.Proofs.Simulation.Expression — the code of expressions evaluates them

Each case of the evaluator that has a value is followed by the code of the same node: from any scene in which the
record of the surrounding scopes is in slot -2, the code leads to a scene with the evaluator's new state in which slot
0 represents the value. There is one lemma per node; what they need of smaller evaluations they take as hypotheses
(`Evaluates`, `Applies`), and the induction on the fuel is done once, for all of the evaluator, when its parts are in
place.
-/

namespace Lamcode.Simulation

open Layout Emit Operand Reference

variable {I : Image}

/-! ## What is to be shown -/

/-- The code from `a` to `a'` leaves what represents `v` in slot 0 of the frame with base `b`, and the evaluator in
the state `st`. It uses no stack below `b`. -/
def Delivers (S : Scene I) (b : Int) (a a' : Nat) (v : Value Site) (st : State Site) : Prop :=
  ∃ S' : Scene I, S'.state = st ∧ I.layout.Runs ((S.data b).config a) ((S'.data b).config a') ∧
    Later b S.top S S' ∧ Represents I S'.world v (S'.mem b)

/-- The code of expressions does what the evaluator does with this fuel. -/
def Evaluates (I : Image) (fuel : Nat) : Prop :=
  ∀ {depth : Nat} {env : Env Site} {e : Expr Site} {v : Value Site} {st : State Site} {S : Scene I}
    {site : Site} {scope a a' h h' : Nat},
    eval I.room fuel depth env e S.state = .ok (v, st) →
    FragmentStands I.layout I.scopes site e.emit a a' h h' → e.ScopedIn I.scopes scope →
    Encloses I S.world I.scopes env scope (S.mem (I.base depth - 2)) →
    Delivers S (I.base depth) a a' v st

/-- The code of functions does what the evaluator does with this fuel: slot 0 holds the record of the call, slot 1
the address to go on at. -/
def Applies (I : Image) (fuel : Nat) : Prop :=
  ∀ {depth : Nat} {f x v : Value Site} {st : State Site} {S : Scene I} {y z r captured : Int}
    {entry resume : Nat},
    apply I.room fuel depth f x S.state = .ok (v, st) →
    Represents I S.world f y → S.world.word y = some (.fixed entry) →
    S.world.word (y + 1) = some (.fixed captured) → S.world.word r = some (.fixed captured) →
    S.world.word (r + 1) = some (.fixed z) → Represents I S.world x z →
    S.mem (I.base depth) = r → S.mem (I.base depth + 1) = resume → resume < Memory.addressLimit →
    Delivers S (I.base depth) entry resume v st

/-- The code of the elements of a tuple does what the evaluator does with this fuel: slot -1 holds the address of
the tuple, whose words from `index` on are still to be filled. -/
def EvaluatesItems (I : Image) (fuel : Nat) : Prop :=
  ∀ {depth : Nat} {env : Env Site} {items : List (Expr Site)} {vs : List (Value Site)} {st : State Site}
    {S : Scene I} {site : Site} {scope index a a' h h' : Nat} {p limit : Int},
    evalItems I.room fuel depth env items S.state = .ok (vs, st) →
    FragmentStands I.layout I.scopes site (Expr.emitItems index items) a a' h h' →
    Expr.AllScopedIn I.scopes scope items → depth ≤ I.room.stack →
    Encloses I S.world I.scopes env scope (S.mem (I.base depth - 2)) → S.mem (I.base depth - 1) = p →
    (∀ i < items.length, S.Loose (p + 1 + index + i)) → I.ramBegin ≤ limit → limit ≤ S.top →
    limit ≤ p + 1 + index →
    ∃ S' : Scene I, S'.state = st ∧
      I.layout.Runs ((S.data (I.base depth)).config a) ((S'.data (I.base depth)).config a') ∧
      Later (I.base depth) limit S S' ∧ RepresentsAll I S'.world vs (p + 1 + index)

/-- A value that can be applied is a closure in memory. -/
theorem exists_entry {fuel depth : Nat} {f x v : Value Site} {st st' : State Site} {W : World I} {y : Int}
    (happly : apply I.room fuel depth f x st = .ok (v, st')) (hf : Represents I W f y) :
    ∃ (entry : Nat) (captured : Int), W.word y = some (.fixed entry) ∧ entry < Memory.addressLimit ∧
      W.word (y + 1) = some (.fixed captured) := by
  cases fuel with
  | zero => cases happly
  | succ fuel =>
    cases hf with
    | int n => cases happly
    | tuple _ _ => cases happly
    | closure hy hlt hy' => exact ⟨_, _, hy, hlt, hy'⟩
    | builtin hy hlt hy' => exact ⟨_, _, hy, hlt, hy'⟩
    | unit _ hparams =>
      rw [apply, applyBuiltin, hparams] at happly
      obtain ⟨_, _, -, happly⟩ := bind_eq_ok.1 happly
      cases happly

/-- An expression that has a value has room for it. -/
theorem room_of_eval {fuel depth : Nat} {env : Env Site} {e : Expr Site} {v : Value Site}
    {st st' : State Site} (h : eval I.room fuel depth env e st = .ok (v, st')) :
    depth + 1 ≤ I.room.stack := by
  induction fuel generalizing e with
  | zero => cases h
  | succ fuel ih =>
    cases e with
    | group _ inner =>
      rw [eval] at h
      exact ih h
    | _ =>
      rw [eval] at h
      obtain ⟨_, _, htouch, -⟩ := bind_eq_ok.1 h
      have := (touch_eq_ok.1 htouch).1
      omega

/-- A value that is put in slot 0. -/
theorem delivers_push {S : Scene I} {site : Site} {t : ScopeTable} {b x : Int} {a a' : Nat} {source : Operand}
    {v : Value Site} (hx : Yields I.layout t site.scope (S.data b) source x)
    (hv : Represents I S.world v x) (hstack : I.OnStack b)
    (hs : Stands I.layout t site (concat [copy source (rel 0)]) a a') : Delivers S b a a' v S.state := by
  have hpush := falls_push hx (Int.add_zero b) hstack
  refine ⟨S.store b x (Scene.loose_of_onStack hstack), rfl, (hpush.cons .nil).runs hs,
    (Later.refl _ _ _).push hstack (Int.le_refl _), ?_⟩
  change Represents I S.world v (Function.update S.mem b x b)
  rw [Function.update_self]
  exact hv

/-! ## Numbers, variables and groups -/

theorem evaluates_number {fuel depth : Nat} {env : Env Site} {site other : Site} {n : Int} {v : Value Site}
    {st : State Site} {S : Scene I} {a a' h h' : Nat}
    (heval : eval I.room (fuel + 1) depth env (.number site n) S.state = .ok (v, st))
    (hs : FragmentStands I.layout I.scopes other (Expr.emit (.number site n)) a a' h h') :
    Delivers S (I.base depth) a a' v st := by
  have hroom := room_of_eval heval
  rw [eval] at heval
  obtain ⟨_, _, htouch, heval⟩ := bind_eq_ok.1 heval
  obtain ⟨-, rfl⟩ := touch_eq_ok.1 htouch
  obtain ⟨rfl, rfl⟩ := pure_eq_ok.1 heval
  exact delivers_push (yields_int n) (.int n) (Image.onStack_of_le hroom (by omega) (by omega)) hs.number

theorem evaluates_var {fuel depth : Nat} {env : Env Site} {site other : Site} {name : String} {v : Value Site}
    {st : State Site} {S : Scene I} {a a' h h' : Nat}
    (heval : eval I.room (fuel + 1) depth env (.var site name) S.state = .ok (v, st))
    (hs : FragmentStands I.layout I.scopes other (Expr.emit (.var site name)) a a' h h')
    (henv : Encloses I S.world I.scopes env site.scope (S.mem (I.base depth - 2))) :
    Delivers S (I.base depth) a a' v st := by
  have hroom := room_of_eval heval
  rw [eval] at heval
  obtain ⟨_, _, htouch, heval⟩ := bind_eq_ok.1 heval
  obtain ⟨-, rfl⟩ := touch_eq_ok.1 htouch
  have hcode := hs.var
  obtain ⟨a₁, ⟨items, hitems, -⟩, -⟩ := hcode.concat_cons (.copy _ _)
  obtain ⟨ls, lt, hls, -⟩ := hitems.copy
  have hslot : I.base depth + scopeSlot = I.base depth - 2 := rfl
  obtain ⟨rfl, y, hy, hrep⟩ := names_var hslot (Image.onStack_of_le hroom (by omega) (by omega)) henv
    (hls.resolves name (List.mem_singleton_self _)) heval
  exact delivers_push hy.yields hrep (Image.onStack_of_le hroom (by omega) (by omega)) hcode

/-! ## Function literals -/

theorem evaluates_function {fuel depth scope : Nat} {env : Env Site} {site other : Site} {param : String}
    {body : Expr Site} {v : Value Site} {st : State Site} {S : Scene I} {a a' h h' : Nat}
    (heval : eval I.room (fuel + 1) depth env (.function site param body) S.state = .ok (v, st))
    (hs : FragmentStands I.layout I.scopes other (Expr.emit (.function site param body)) a a' h h')
    (hscoped : (Expr.function site param body).ScopedIn I.scopes scope)
    (henv : Encloses I S.world I.scopes env scope (S.mem (I.base depth - 2))) :
    Delivers S (I.base depth) a a' v st := by
  have hroom := room_of_eval heval
  rw [eval] at heval
  obtain ⟨_, _, htouch, heval⟩ := bind_eq_ok.1 heval
  obtain ⟨-, rfl⟩ := touch_eq_ok.1 htouch
  obtain ⟨_, _, hallocate, heval⟩ := bind_eq_ok.1 heval
  obtain ⟨hheap, rfl⟩ := allocate_eq_ok.1 hallocate
  obtain ⟨rfl, rfl⟩ := pure_eq_ok.1 heval
  obtain ⟨entry, hentry, hcode, hbody⟩ := hs.function
  obtain ⟨-, inner, hinner, hlt, hbodyScoped⟩ := hscoped
  have hstack : I.OnStack (I.base depth) := Image.onStack_of_le hroom (by omega) (by omega)
  have hstack' : I.OnStack (I.base depth - 2) := Image.onStack_of_le hroom (by omega) (by omega)
  -- slot 0 gets the address of the closure, which is then written on the heap
  let S₁ := S.store (I.base depth) S.top (Scene.loose_of_onStack hstack)
  have hpush : Falls I.layout I.scopes site (copy (.wordAt .ramPointer) (rel 0)) (S.data (I.base depth))
      (S₁.data (I.base depth)) := falls_push yields_cursor (Int.add_zero _) hstack
  have hlater₁ : Later (I.base depth) S.top S S₁ := (Later.refl _ _ _).push hstack (Int.le_refl _)
  have hscope : S₁.mem (I.base depth - 2) = S.mem (I.base depth - 2) :=
    Function.update_of_ne (by omega) ..
  have hslot : I.base depth + -2 = I.base depth - 2 := rfl
  obtain ⟨S₂, hstate, hpair, hkept, hlater₂, hword, hword'⟩ :=
    exists_pair (S := S₁) I.scopes site (yields_addressOf hentry) hslot hstack' hscope hheap
  have hlater := hlater₁.trans (hlater₂ (I.base depth) S.top (Int.le_refl _)) (Int.le_refl _) (Int.le_refl _)
  refine ⟨S₂, hstate, (hpush.cons hpair).runs hcode, hlater, ?_⟩
  rw [hkept _ hstack, show S₁.mem (I.base depth) = S.top from Function.update_self ..]
  exact .closure hword (I.address_lt hentry) hword' (henv.mono hlater.extends_world) hinner hlt
    hbodyScoped hbody

/-! ## Tuples -/

theorem evaluatesItems_succ {fuel : Nat} (hevaluates : Evaluates I fuel)
    (hitems : EvaluatesItems I fuel) : EvaluatesItems I (fuel + 1) := by
  intro depth env items vs st S site scope index a a' h h' p limit heval hs hscoped hroom henv hp hloose
    hram hlimit hindex
  cases items with
  | nil =>
    rw [evalItems] at heval
    obtain ⟨rfl, rfl⟩ := pure_eq_ok.1 heval
    rw [hs.items_nil]
    exact ⟨S, rfl, .refl _, .refl _ _ _, .nil _⟩
  | cons e rest =>
    rw [evalItems] at heval
    obtain ⟨v, _, hv, heval⟩ := bind_eq_ok.1 heval
    obtain ⟨vs', st', hvs, heval⟩ := bind_eq_ok.1 heval
    obtain ⟨rfl, rfl⟩ := pure_eq_ok.1 heval
    obtain ⟨a₁, a₂, h₁, he, hstore, hrest⟩ := hs.items_cons
    have hbelow : I.OnStack (I.base depth - 1) := Image.onStack_of_le (n := 0) hroom (by omega) (by omega)
    have hscope : I.OnStack (I.base depth - 2) := Image.onStack_of_le (n := 0) hroom (by omega) (by omega)
    have hroom' := room_of_eval hv
    have hstack : I.OnStack (I.base depth) := Image.onStack_of_le hroom' (by omega) (by omega)
    -- the element is evaluated, stored in its word, and the word settled
    obtain ⟨S₁, rfl, hruns₁, hlater₁, hrep₁⟩ := hevaluates hv he hscoped.1 henv
    have hp₁ : S₁.mem (I.base depth - 1) = p :=
      (hlater₁.mem_onStack hbelow (by omega) S.ramBegin_le_top).trans hp
    have hword := hloose 0 (by simp)
    rw [Int.natCast_zero, Int.add_zero] at hword
    have hword₁ := hlater₁.loose hword hword.lt_top
    have hnot : ¬ I.OnStack (p + 1 + index) := fun hx => by
      have := hx.2
      omega
    let S₂ := S₁.store (p + 1 + index) (S₁.mem (I.base depth)) hword₁
    have htarget : Names I.layout I.scopes site.scope (S₁.data (I.base depth))
        (.offset (.spill (rel (-1))) (.int (Heap.tupleHeader + index))) (p + 1 + index) :=
      names_spilled hbelow.free hp₁ (by simp only [Heap.tupleHeader]; omega) hword.free
    have hfalls : Falls I.layout I.scopes site _ (S₁.data (I.base depth)) (S₂.data (I.base depth)) :=
      falls_store (names_slot (Int.add_zero _) hstack).yields htarget hword₁
    have hword₂ : S₂.Loose (p + 1 + index) := hword₁.store hword₁
    let S₃ := S₂.settle (p + 1 + index) hword₂ hnot
    have hsettled : S₃.world.word (p + 1 + index) = some (.fixed (S₁.mem (I.base depth))) := by
      refine (Scene.word_settle hword₂ hnot).trans ?_
      exact congrArg (fun w => some (Content.fixed w)) (Function.update_self ..)
    have hlater₂ : Later (I.base depth) limit S₁ S₃ :=
      (Later.store hword₁ (.inr hindex)).trans (Scene.later_settle hword₂ hnot hindex) (Int.le_refl _)
        (Int.le_refl _)
    have hlater := (hlater₁.mono (Int.le_refl _) hlimit).trans hlater₂ (Int.le_refl _) (Int.le_refl _)
    -- the other elements find their words still loose
    have hnext : p + 1 + ((index + 1 : Nat) : Int) = p + 1 + index + 1 := by omega
    have hloose₃ : ∀ i < rest.length, S₃.Loose (p + 1 + ((index + 1 : Nat) : Int) + i) := by
      intro i hi
      have hword' := hloose (i + 1) (by simpa using hi)
      have haddress : p + 1 + ((index + 1 : Nat) : Int) + i = p + 1 + index + ((i + 1 : Nat) : Int) := by
        omega
      rw [haddress]
      exact Scene.loose_settle hword₂ hnot ((hlater₁.loose hword' hword'.lt_top).store hword₁) (by omega)
    have henv₃ : Encloses I S₃.world I.scopes env scope (S₃.mem (I.base depth - 2)) := by
      rw [hlater.mem_onStack hscope (by omega) hram]
      exact henv.mono hlater.extends_world
    obtain ⟨S', hstate, hruns, hlater', hreps⟩ := hitems (S := S₃) hvs hrest hscoped.2 hroom henv₃
      ((hlater.mem_onStack hbelow (by omega) hram).trans hp) hloose₃ hram
      (Int.le_trans hlimit hlater.top_le) (by omega)
    rw [hnext] at hreps
    refine ⟨S', hstate, (hruns₁.trans ((hfalls.cons .nil).runs hstore)).trans hruns,
      hlater.trans hlater' (Int.le_refl _) (Int.le_refl _), .cons (hlater'.extends_world hsettled) ?_ hreps⟩
    exact hrep₁.mono (hlater₂.extends_world.trans hlater'.extends_world)

/-- The code in front of the elements of a tuple hands the record on, keeps the address of the tuple, writes its
length and reserves the words of its elements. -/
theorem exists_reserved {S : Scene I} (site : Site) {depth n : Nat} {none : Bool}
    (hnone : none = true ↔ n = 0) (hroom : depth + 2 ≤ I.room.stack)
    (hheap : S.state.heap + (1 + n) ≤ I.room.heap) :
    ∃ S' : Scene I, S'.state = { S.state with heap := S.state.heap + (1 + n) } ∧
      Falls I.layout I.scopes site (concat ([copy (rel (-2)) (rel 0), moveStack 2,
        copy (.wordAt .ramPointer) (rel (-1)), writeToRam (.int n)] ++
          if none then [] else [addTo (.int n) (.wordAt .ramPointer)]))
        (S.data (I.base depth)) (S'.data (I.base depth + 2)) ∧
      Later (I.base depth) S.top S S' ∧ S'.mem (I.base depth) = S.mem (I.base depth - 2) ∧
      S'.mem (I.base depth + 1) = S.top ∧ S'.world.word S.top = some (.fixed n) ∧
      S.top + 1 ≤ S'.top ∧ ∀ i < n, S'.Loose (S.top + 1 + i) := by
  have hscope : I.OnStack (I.base depth - 2) := Image.onStack_of_le hroom (by omega) (by omega)
  have hstack : I.OnStack (I.base depth) := Image.onStack_of_le hroom (by omega) (by omega)
  have hstack' : I.OnStack (I.base depth + 1) := Image.onStack_of_le hroom (by omega) (by omega)
  let S₁ := S.store (I.base depth) (S.mem (I.base depth - 2)) (Scene.loose_of_onStack hstack)
  let S₂ := S₁.store (I.base depth + 1) S₁.top (Scene.loose_of_onStack hstack')
  have hheap₂ : S₂.state.heap + 1 ≤ I.room.heap := by
    change S.state.heap + 1 ≤ I.room.heap
    omega
  let S₃ := S₂.allot n hheap₂
  have hheap₃ : S₃.state.heap + n ≤ I.room.heap := by
    change S.state.heap + 1 + n ≤ I.room.heap
    omega
  let S₄ := S₃.reserve n hheap₃
  have htop₃ : S₃.top = S.top + 1 := S₂.top_allot _
  have htop₄ : S₄.top = S₃.top + n := S₃.top_reserve hheap₃
  have hfalls : Falls I.layout I.scopes site _ (S.data (I.base depth)) (S₃.data (I.base depth + 2)) :=
    (falls_push (names_slot (b := I.base depth) (k := -2) rfl hscope).yields (Int.add_zero _) hstack).cons
      ((falls_move rfl).cons ((falls_push (S := S₁) (k := -1) yields_cursor (by omega) hstack').cons
        ((falls_allot (S := S₂) (yields_int n) hheap₂).cons .nil)))
  have hreserve : Falls I.layout I.scopes site
      (concat (if none then [] else [addTo (.int n) (.wordAt .ramPointer)]))
      (S₃.data (I.base depth + 2)) (S₄.data (I.base depth + 2)) := by
    cases none with
    | true =>
      -- nothing is added to the cursor, and adding nothing changes nothing
      obtain rfl := hnone.1 rfl
      have hsame : S₄.data (I.base depth + 2) = S₃.data (I.base depth + 2) := by
        change Data.mk _ (Function.update S₃.mem I.cursor (S₃.mem I.cursor + 0)) _ = _
        rw [Int.add_zero, Function.update_eq_self]
        rfl
      rw [hsame]
      exact .nil
    | false => exact (falls_reserve (yields_int _) hheap₃).cons .nil
  have hlater₂ : Later (I.base depth) S.top S S₂ :=
    ((Later.refl _ _ _).push hstack (Int.le_refl _)).push hstack' (by omega)
  have hlater₄ : Later (I.base depth + 2) S.top S₂ S₄ :=
    (S₂.later_allot hheap₂ (Int.le_refl _)).trans (.reserve hheap₃) (Int.le_refl _) (Int.le_refl _)
  refine ⟨S₄, ?_, hfalls.append hreserve, hlater₂.trans hlater₄ (by omega) (Int.le_refl _), ?_, ?_,
    S₂.word_allot hheap₂, by omega, fun i hi => ?_⟩
  · rw [← Nat.add_assoc]
    rfl
  · rw [hlater₄.mem_onStack hstack (by omega) S.ramBegin_le_top]
    exact (Function.update_of_ne (by omega) ..).trans (Function.update_self ..)
  · rw [hlater₄.mem_onStack hstack' (by omega) S.ramBegin_le_top]
    exact Function.update_self ..
  · rw [← htop₃]
    exact S₃.loose_top hheap₃ hi

theorem evaluates_tuple {fuel depth scope : Nat} {env : Env Site} {site other : Site}
    {items : List (Expr Site)} {v : Value Site} {st : State Site} {S : Scene I} {a a' h h' : Nat}
    (hitems : EvaluatesItems I fuel)
    (heval : eval I.room (fuel + 1) depth env (.tuple site items) S.state = .ok (v, st))
    (hs : FragmentStands I.layout I.scopes other (Expr.emit (.tuple site items)) a a' h h')
    (hscoped : (Expr.tuple site items).ScopedIn I.scopes scope)
    (henv : Encloses I S.world I.scopes env scope (S.mem (I.base depth - 2))) :
    Delivers S (I.base depth) a a' v st := by
  rw [eval] at heval
  obtain ⟨_, _, htouch, heval⟩ := bind_eq_ok.1 heval
  obtain ⟨hroom, rfl⟩ := touch_eq_ok.1 htouch
  obtain ⟨_, _, hallocate, heval⟩ := bind_eq_ok.1 heval
  obtain ⟨hheap, rfl⟩ := allocate_eq_ok.1 hallocate
  obtain ⟨vs, st', hvs, heval⟩ := bind_eq_ok.1 heval
  obtain ⟨rfl, rfl⟩ := pure_eq_ok.1 heval
  obtain ⟨a₁, a₂, hopen, hitemsAt, hclose⟩ := hs.tuple
  have hstack : I.OnStack (I.base depth) := Image.onStack_of_le hroom (by omega) (by omega)
  have hstack' : I.OnStack (I.base depth + 1) := Image.onStack_of_le hroom (by omega) (by omega)
  have hbase : I.base (depth + 2) = I.base depth + 2 := Image.base_add depth 2
  obtain ⟨S₁, hstate₁, hfalls, hlater₁, hrecord, haddress, hlength, htop, hloose⟩ :=
    exists_reserved site List.isEmpty_iff_length_eq_zero hroom hheap
  rw [← hstate₁] at hvs
  -- the elements are evaluated in a frame two words up
  have henv₁ : Encloses I S₁.world I.scopes env scope (S₁.mem (I.base (depth + 2) - 2)) := by
    rw [hbase, Int.add_sub_cancel, hrecord]
    exact henv.mono hlater₁.extends_world
  have hslot : I.base (depth + 2) - 1 = I.base depth + 1 := by omega
  have hram := S.ramBegin_le_top
  obtain ⟨S₂, hstate₂, hruns, hlater₂, hreps⟩ := hitems hvs hitemsAt hscoped.2 hroom henv₁
    (by rw [hslot, haddress]) (by simpa using hloose) (by omega) htop (Int.le_of_eq (Int.add_zero _).symm)
  rw [hbase] at hruns hlater₂
  rw [Int.natCast_zero, Int.add_zero] at hreps
  -- the address of the tuple is the value
  let S₃ := S₂.store (I.base depth) (S₂.mem (I.base depth + 1)) (Scene.loose_of_onStack hstack)
  have hreturn : Falls I.layout I.scopes site _ (S₂.data (I.base depth + 2)) (S₃.data (I.base depth)) :=
    falls_return rfl hstack rfl hstack'
  refine ⟨S₃, hstate₂, ((hfalls.runs hopen).trans hruns).trans (hreturn.runs hclose), ?_, ?_⟩
  · exact (hlater₁.trans hlater₂ (by omega) (by omega)).push hstack (Int.le_refl _)
  · have hvalue : S₃.mem (I.base depth) = S.top := by
      rw [← haddress, ← hlater₂.mem_onStack hstack' (by omega) (by omega)]
      exact Function.update_self ..
    rw [hvalue]
    refine .tuple ?_ hreps
    rw [length_of_evalItems hvs]
    exact hlater₂.extends_world hlength

/-! ## Calls -/

/-- The code between the argument of a call and the jump into the function makes the record of the call, from what
the closure at `y` captured and the argument, and notes where to go on. -/
theorem exists_prepared {S : Scene I} (site : Site) {depth b : Nat} {resume : Label} {y captured : Int}
    (hroom : depth + 5 ≤ I.room.stack) (hheap : S.state.heap + 2 ≤ I.room.heap)
    (hresume : I.layout.addresses[resume.index]? = some b) (hy : S.mem (I.base depth) = y)
    (hcaptured : S.world.word (y + 1) = some (.fixed captured)) :
    ∃ S' : Scene I, S'.state = { S.state with heap := S.state.heap + 2 } ∧
      Falls I.layout I.scopes site (concat [copy (rel 0) (rel (-1)), copy (.wordAt .ramPointer) (rel 0),
        writeToRam (Operand.offset (.int Heap.closureScope) (rel (-3))).toPointer,
        writeToRam (rel (-1)), copy (.addressOf resume) (rel 1)])
        (S.data (I.base depth + 3)) (S'.data (I.base depth + 3)) ∧
      Later (I.base depth + 2) S.top S S' ∧ S'.mem (I.base depth + 3) = S.top ∧
      S'.mem (I.base depth + 3 + 1) = b ∧ S'.world.word S.top = some (.fixed captured) ∧
      S'.world.word (S.top + 1) = some (.fixed (S.mem (I.base depth + 3))) := by
  have hstack : I.OnStack (I.base depth) := Image.onStack_of_le hroom (by omega) (by omega)
  have hstack₂ : I.OnStack (I.base depth + 2) := Image.onStack_of_le hroom (by omega) (by omega)
  have hstack₃ : I.OnStack (I.base depth + 3) := Image.onStack_of_le hroom (by omega) (by omega)
  have hstack₄ : I.OnStack (I.base depth + 3 + 1) := Image.onStack_of_le hroom (by omega) (by omega)
  have hslot : I.base depth + 3 + -3 = I.base depth := by omega
  have hslot₂ : I.base depth + 3 + -1 = I.base depth + 2 := by omega
  let S₁ := S.store (I.base depth + 2) (S.mem (I.base depth + 3)) (Scene.loose_of_onStack hstack₂)
  let S₂ := S₁.store (I.base depth + 3) S₁.top (Scene.loose_of_onStack hstack₃)
  have hlater₂ : Later (I.base depth + 2) S.top S S₂ :=
    ((Later.refl _ _ _).push hstack₂ (Int.le_refl _)).push hstack₃ (by omega)
  have hy₂ : S₂.mem (I.base depth) = y :=
    (hlater₂.mem_onStack hstack (by omega) S.ramBegin_le_top).trans hy
  have harg : S₂.mem (I.base depth + 2) = S.mem (I.base depth + 3) :=
    (Function.update_of_ne (by omega) ..).trans (Function.update_self ..)
  have hscope : Yields I.layout I.scopes site.scope (S₂.data (I.base depth + 3))
      (Operand.offset (.int Heap.closureScope) (rel (-3))).toPointer captured :=
    yields_field hslot hstack hy₂ hcaptured
  obtain ⟨S₃, hstate, hpair, hkept, hlater₃, hword, hword'⟩ := exists_pair I.scopes site hscope hslot₂ hstack₂ harg hheap
  let S₄ := S₃.store (I.base depth + 3 + 1) b (Scene.loose_of_onStack hstack₄)
  have hcopy : Falls I.layout I.scopes site _ (S.data (I.base depth + 3)) (S₂.data (I.base depth + 3)) :=
    (falls_push (names_slot (Int.add_zero _) hstack₃).yields hslot₂ hstack₂).cons
      ((falls_push (S := S₁) yields_cursor (Int.add_zero _) hstack₃).cons .nil)
  have hnote : Falls I.layout I.scopes site _ (S₃.data (I.base depth + 3)) (S₄.data (I.base depth + 3)) :=
    falls_push (yields_addressOf hresume) rfl hstack₄
  refine ⟨S₄, hstate, hcopy.append (hpair.append (hnote.cons .nil)), ?_, ?_, Function.update_self ..,
    hword, hword'⟩
  · exact (hlater₂.trans (hlater₃ _ _ (Int.le_refl _)) (Int.le_refl _) (Int.le_refl _)).push hstack₄ (by omega)
  · refine (Function.update_of_ne (by omega) ..).trans ((hkept _ hstack₃).trans ?_)
    exact Function.update_self ..

/-- Function and argument of a call are evaluated in the frame three words up; the function is then in slot 0 of the
frame below and the argument in slot 3. -/
theorem exists_operands {fuel depth scope : Nat} {env : Env Site} {site : Site} {f x : Expr Site}
    {fv xv : Value Site} {st₁ st₂ : State Site} {S : Scene I} {a a₁ a₂ a₃ a₄ h h₁ h₂ : Nat}
    (hevaluates : Evaluates I fuel) (hroom : depth + 5 ≤ I.room.stack)
    (hf : eval I.room fuel (depth + 3) env f S.state = .ok (fv, st₁))
    (hx : eval I.room fuel (depth + 3) env x st₁ = .ok (xv, st₂))
    (hopen : Stands I.layout I.scopes site (concat [copy (rel (-2)) (rel 1), moveStack 3]) a a₁)
    (hfAt : FragmentStands I.layout I.scopes site f.emit a₁ a₂ h h₁)
    (hkeep : Stands I.layout I.scopes site (concat [copy (rel 0) (rel (-3))]) a₂ a₃)
    (hxAt : FragmentStands I.layout I.scopes site x.emit a₃ a₄ h₁ h₂)
    (hscoped : f.ScopedIn I.scopes scope ∧ x.ScopedIn I.scopes scope)
    (henv : Encloses I S.world I.scopes env scope (S.mem (I.base depth - 2))) :
    ∃ S' : Scene I, S'.state = st₂ ∧
      I.layout.Runs ((S.data (I.base depth)).config a) ((S'.data (I.base depth + 3)).config a₄) ∧
      Later (I.base depth) S.top S S' ∧ Represents I S'.world fv (S'.mem (I.base depth)) ∧
      Represents I S'.world xv (S'.mem (I.base depth + 3)) := by
  have hscope : I.OnStack (I.base depth - 2) := Image.onStack_of_le hroom (by omega) (by omega)
  have hstack : I.OnStack (I.base depth) := Image.onStack_of_le hroom (by omega) (by omega)
  have hstack₁ : I.OnStack (I.base depth + 1) := Image.onStack_of_le hroom (by omega) (by omega)
  have hstack₃ : I.OnStack (I.base depth + 3) := Image.onStack_of_le hroom (by omega) (by omega)
  have hbase : I.base (depth + 3) = I.base depth + 3 := Image.base_add depth 3
  have hslot : I.base (depth + 3) - 2 = I.base depth + 1 := by omega
  have hram := S.ramBegin_le_top
  -- the record is handed on
  let S₁ := S.store (I.base depth + 1) (S.mem (I.base depth - 2)) (Scene.loose_of_onStack hstack₁)
  have hlater₁ : Later (I.base depth) S.top S S₁ := (Later.refl _ _ _).push hstack₁ (by omega)
  have hrecord₁ : S₁.mem (I.base depth + 1) = S.mem (I.base depth - 2) := Function.update_self ..
  have hopens : Falls I.layout I.scopes site _ (S.data (I.base depth)) (S₁.data (I.base depth + 3)) :=
    (falls_push (names_slot (b := I.base depth) (k := -2) rfl hscope).yields rfl hstack₁).cons
      ((falls_move rfl).cons .nil)
  obtain ⟨S₂, rfl, hruns₂, hlater₂, hrep₂⟩ :=
    hevaluates (S := S₁) hf hfAt hscoped.1 (by rw [hslot, hrecord₁]; exact henv)
  rw [hbase] at hruns₂ hlater₂ hrep₂
  -- the function is kept
  let S₃ := S₂.store (I.base depth) (S₂.mem (I.base depth + 3)) (Scene.loose_of_onStack hstack)
  have hkeeps : Falls I.layout I.scopes site _ (S₂.data (I.base depth + 3)) (S₃.data (I.base depth + 3)) :=
    (falls_push (k := -3) (names_slot (Int.add_zero _) hstack₃).yields (by omega) hstack).cons .nil
  have hlater₃ : Later (I.base depth) S.top S S₃ :=
    (hlater₁.trans hlater₂ (by omega) (Int.le_refl _)).push hstack (Int.le_refl _)
  have hrecord₃ : S₃.mem (I.base depth + 1) = S.mem (I.base depth - 2) := by
    refine (Function.update_of_ne (by omega) ..).trans ?_
    rw [hlater₂.mem_onStack hstack₁ (by omega) hram, hrecord₁]
  obtain ⟨S₄, rfl, hruns₄, hlater₄, hrep₄⟩ := hevaluates (S := S₃) hx hxAt hscoped.2
    (by rw [hslot, hrecord₃]; exact henv.mono hlater₃.extends_world)
  rw [hbase] at hruns₄ hlater₄ hrep₄
  have hruns := ((hopens.runs hopen).trans hruns₂).trans ((hkeeps.runs hkeep).trans hruns₄)
  refine ⟨S₄, rfl, hruns, hlater₃.trans hlater₄ (by omega) hlater₃.top_le, ?_, hrep₄⟩
  rw [hlater₄.mem_onStack hstack (by omega) S₃.ramBegin_le_top,
    show S₃.mem (I.base depth) = S₂.mem (I.base depth + 3) from Function.update_self ..]
  exact hrep₂.mono hlater₄.extends_world

theorem evaluates_call {fuel depth scope : Nat} {env : Env Site} {site other : Site}
    {f x : Expr Site} {v : Value Site} {st : State Site} {S : Scene I} {a a' h h' : Nat}
    (hevaluates : Evaluates I fuel) (happlies : Applies I fuel)
    (heval : eval I.room (fuel + 1) depth env (.call site f x) S.state = .ok (v, st))
    (hs : FragmentStands I.layout I.scopes other (Expr.emit (.call site f x)) a a' h h')
    (hscoped : (Expr.call site f x).ScopedIn I.scopes scope)
    (henv : Encloses I S.world I.scopes env scope (S.mem (I.base depth - 2))) :
    Delivers S (I.base depth) a a' v st := by
  rw [eval] at heval
  obtain ⟨_, _, htouch, heval⟩ := bind_eq_ok.1 heval
  obtain ⟨hroom, rfl⟩ := touch_eq_ok.1 htouch
  obtain ⟨fv, _, hf, heval⟩ := bind_eq_ok.1 heval
  obtain ⟨xv, _, hx, heval⟩ := bind_eq_ok.1 heval
  obtain ⟨_, _, hallocate, happly⟩ := bind_eq_ok.1 heval
  obtain ⟨resume, a₁, a₂, a₃, a₄, a₅, a₆, h₁, hopen, hfAt, hkeep, hxAt, hprepare, hjump, hresume, hleave⟩ :=
    hs.call
  have hstack : I.OnStack (I.base depth) := Image.onStack_of_le hroom (by omega) (by omega)
  have hstack₃ : I.OnStack (I.base depth + 3) := Image.onStack_of_le hroom (by omega) (by omega)
  have hbase : I.base (depth + 3) = I.base depth + 3 := Image.base_add depth 3
  obtain ⟨S₁, rfl, hruns₁, hlater₁, hrepf, hrepx⟩ :=
    exists_operands hevaluates hroom hf hx hopen hfAt hkeep hxAt hscoped.2 henv
  -- the closure is entered with a new record
  obtain ⟨hheap, rfl⟩ := allocate_eq_ok.1 hallocate
  obtain ⟨entry, captured, hentry, hlt, hcaptured⟩ := exists_entry happly hrepf
  obtain ⟨S₂, hstate₂, hprepares, hlater₂, hrecord, hnext, hword, hword'⟩ :=
    exists_prepared site hroom hheap hresume rfl hcaptured
  have hy : S₂.mem (I.base depth) = S₁.mem (I.base depth) :=
    hlater₂.mem_onStack hstack (by omega) S₁.ramBegin_le_top
  have hentry₂ := hlater₂.extends_world hentry
  have henter : I.layout.Runs ((S₂.data (I.base depth + 3)).config a₅)
      ((S₂.data (I.base depth + 3)).config entry) := by
    refine (exits_jump S₂.loaded (yields_field (by omega) hstack hy ?_) hlt).runs hjump
    exact (congrArg S₂.world.word (Int.add_zero _)).trans hentry₂
  rw [← hstate₂] at happly
  rw [← hbase] at hrecord hnext
  obtain ⟨S₃, rfl, hruns₃, hlater₃, hrep₃⟩ := happlies happly (hrepf.mono hlater₂.extends_world) hentry₂
    (hlater₂.extends_world hcaptured) hword hword' (hrepx.mono hlater₂.extends_world) hrecord hnext
    (I.address_lt hresume)
  rw [hbase] at hruns₃ hlater₃ hrep₃
  -- and leaves the value in the frame above
  let S₄ := S₃.store (I.base depth) (S₃.mem (I.base depth + 3)) (Scene.loose_of_onStack hstack)
  have hreturn : Falls I.layout I.scopes site _ (S₃.data (I.base depth + 3)) (S₄.data (I.base depth)) :=
    falls_return rfl hstack rfl hstack₃
  have hruns := (hruns₁.trans ((hprepares.runs hprepare).trans henter)).trans
    (hruns₃.trans (hreturn.runs hleave))
  have hlater := (hlater₁.trans hlater₂ (by omega) hlater₁.top_le).trans hlater₃ (by omega)
    (hlater₁.trans hlater₂ (by omega) hlater₁.top_le).top_le
  refine ⟨S₄, rfl, hruns, hlater.push hstack (Int.le_refl _), ?_⟩
  rw [show S₄.mem (I.base depth) = S₃.mem (I.base depth + 3) from Function.update_self ..]
  exact hrep₃

/-- A closure that is entered evaluates its body in the frame two words up, with the record of the call in place of
the record of the caller's scopes. -/
theorem applies_closure {fuel depth : Nat} {env : Env Site} {param : String} {body : Expr Site}
    {x v : Value Site} {st : State Site} {S : Scene I} {y z r captured : Int} {entry resume : Nat}
    (hevaluates : Evaluates I fuel)
    (happly : apply I.room (fuel + 1) depth (.closure env param body) x S.state = .ok (v, st))
    (hf : Represents I S.world (.closure env param body) y) (hentry : S.world.word y = some (.fixed entry))
    (hcaptured : S.world.word (y + 1) = some (.fixed captured))
    (hr : S.world.word r = some (.fixed captured)) (hr' : S.world.word (r + 1) = some (.fixed z))
    (hx : Represents I S.world x z) (hrecord : S.mem (I.base depth) = r)
    (hresume : S.mem (I.base depth + 1) = resume) (hlt : resume < Memory.addressLimit) :
    Delivers S (I.base depth) entry resume v st := by
  rw [apply] at happly
  cases hf with
  | closure hy hlt' hy' henv hinner hscope hscoped hstands =>
    cases hy.symm.trans hentry
    cases hy'.symm.trans hcaptured
    obtain ⟨site, h₁, h₂, h₃, hmove, hbody, hleave⟩ := hstands
    have hroom : depth + 3 ≤ I.room.stack := room_of_eval happly
    have hstack : I.OnStack (I.base depth) := Image.onStack_of_le hroom (by omega) (by omega)
    have hstack₁ : I.OnStack (I.base depth + 1) := Image.onStack_of_le hroom (by omega) (by omega)
    have hstack₂ : I.OnStack (I.base depth + 2) := Image.onStack_of_le hroom (by omega) (by omega)
    have hbase : I.base (depth + 2) = I.base depth + 2 := Image.base_add depth 2
    have henter : Falls I.layout I.scopes site (moveStack 2) (S.data (I.base depth))
        (S.data (I.base depth + 2)) := falls_move rfl
    obtain ⟨S₁, rfl, hruns, hlater, hrep⟩ := hevaluates happly hbody hscoped
      (by rw [hbase, Int.add_sub_cancel, hrecord]; exact .param hinner hscope hr henv hr' hx)
    rw [hbase] at hruns hlater hrep
    -- the value goes to slot 0, and the run to the address in slot 1
    let S₂ := S₁.store (I.base depth) (S₁.mem (I.base depth + 2)) (Scene.loose_of_onStack hstack)
    have hreturn : Falls I.layout I.scopes site _ (S₁.data (I.base depth + 2)) (S₂.data (I.base depth)) :=
      falls_return rfl hstack rfl hstack₂
    have hresume₂ : S₂.mem (I.base depth + 1) = resume := by
      refine (Function.update_of_ne (by omega) ..).trans ?_
      rw [hlater.mem_onStack hstack₁ (by omega) S.ramBegin_le_top, hresume]
    have hback := (Exits.append hreturn (exits_back (S := S₂) rfl hstack₁ hresume₂ hlt)).runs hleave
    refine ⟨S₂, rfl, ((henter.runs hmove).trans hruns).trans hback,
      (hlater.mono (by omega) (Int.le_refl _)).push hstack (Int.le_refl _), ?_⟩
    rw [show S₂.mem (I.base depth) = S₁.mem (I.base depth + 2) from Function.update_self ..]
    exact hrep

end Lamcode.Simulation
