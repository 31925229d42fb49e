import Lamcode.Proofs.Code.Operand

/-!
# Lamcode.Proofs.Code.Instruction — what each piece of code does

An operand is used in two ways: for its value (`Yields`) and for the data word that it names (`Names`). With
these, one lemma per instruction says what the code of the instruction does to base, data and queue (`Data`), whatever
label it was handed and whichever encoding was chosen for it.

Most code runs from its first word to the word behind its last one: it `Falls` through. Code that goes
elsewhere in the end `Exits`. Both compose along `Emit.concat`.
-/

namespace Lamcode

open Layout Emit

/-- Everything of a configuration but the address it stands at. -/
structure Data where
  base : Int
  mem : Int → Int
  queue : Queue

/-- The configuration with this data that stands at an address. -/
def Data.config (d : Data) (ip : Nat) : Config :=
  ⟨ip, d.base, d.mem, d.queue⟩

/-- A run between two configurations, of which only the scratch words are not known. -/
def Layout.Runs (L : Layout) : Config → Config → Prop :=
  L.Leads fun _ => True

theorem Layout.Leads.runs {L : Layout} {range : Nat → Prop} {c c' : Config} (h : L.Leads range c c') :
    L.Runs c c' :=
  h.mono fun _ _ => trivial

theorem Layout.Runs.refl {L : Layout} (c : Config) : L.Runs c c :=
  Leads.refl _ c

theorem Layout.Runs.trans {L : Layout} {c c' c'' : Config} (h : L.Runs c c') (k : L.Runs c' c'') :
    L.Runs c c'' :=
  Leads.trans h k

variable {L : Layout} {t : ScopeTable} {site : Site} {d d' d'' : Data}

/-! ## Operands in use -/

/-- The operand has the value `v`. -/
def Yields (L : Layout) (t : ScopeTable) (scope : Nat) (d : Data) (o : Operand) (v : Int) : Prop :=
  ∃ mode raw, Means L t scope d.base d.mem o mode raw ∧ L.Reads d.base d.mem mode raw v

/-- The operand names the data word at `x`. -/
def Names (L : Layout) (t : ScopeTable) (scope : Nat) (d : Data) (o : Operand) (x : Int) : Prop :=
  ∃ mode raw, Means L t scope d.base d.mem o mode raw ∧ L.Stores d.base mode raw x

theorem Names.free {scope : Nat} {o : Operand} {x : Int} (h : Names L t scope d o x) : L.Free x := by
  obtain ⟨mode, raw, -, hstores⟩ := h
  cases mode with
  | position => exact hstores.1
  | immediate => exact hstores.elim
  | relative => exact hstores.1

/-- The value of an operand that names a data word is what is in that word. -/
theorem Names.yields {scope : Nat} {o : Operand} {x : Int} (h : Names L t scope d o x) :
    Yields L t scope d o (d.mem x) := by
  obtain ⟨mode, raw, hmeans, hstores⟩ := h
  refine ⟨mode, raw, hmeans, ?_⟩
  cases mode with
  | position =>
    obtain ⟨hfree, rfl⟩ := hstores
    exact ⟨hfree, rfl⟩
  | immediate => exact hstores.elim
  | relative =>
    obtain ⟨hfree, rfl⟩ := hstores
    exact ⟨hfree, rfl⟩

theorem yields_int {scope : Nat} (n : Int) : Yields L t scope d (.int n) n :=
  ⟨.immediate, n, .const rfl, rfl⟩

theorem yields_addressOf {scope : Nat} {l : Label} {a : Nat} (hl : L.addresses[l.index]? = some a) :
    Yields L t scope d (.addressOf l) a :=
  ⟨.immediate, a, .const (by simp only [Assembly.evaluate, hl]), rfl⟩

theorem names_wordAt {scope : Nat} {l : Label} {a : Nat} (hl : L.addresses[l.index]? = some a)
    (ha : L.Free a) : Names L t scope d (.wordAt l) a :=
  ⟨.position, a, .const (by simp only [Assembly.evaluate, hl]), ha, rfl⟩

theorem names_rel {scope : Nat} {k x : Int} (hx : d.base + k = x) (hfree : L.Free x) :
    Names L t scope d (.rel k) x :=
  ⟨.relative, k, .const rfl, hfree, hx⟩

/-- The word that a labelled word points at. -/
theorem names_pointee {scope : Nat} {l : Label} {a : Nat} {x : Int}
    (hl : L.addresses[l.index]? = some a) (ha : L.Free a) (hx : d.mem a = x) (hfree : L.Free x) :
    Names L t scope d (Operand.deref (.wordAt l)).toPointer x := by
  have hword : Means L t scope d.base d.mem (.wordAt l) .position a :=
    .const (by simp only [Assembly.evaluate, hl])
  exact ⟨.position, x, .relabel (.deref hword ⟨ha, hx⟩), hfree, rfl⟩

/-- The word `n` words behind the one that a frame slot points at. -/
theorem names_behind {scope : Nat} {n k p x : Int} (hp : L.Free (d.base + k))
    (hmem : d.mem (d.base + k) = p) (hx : n + p = x) (hfree : L.Free x) :
    Names L t scope d (Operand.offset (.int n) (.rel k)).toPointer x := by
  have hslot : Means L t scope d.base d.mem (.rel k) .relative k := .const rfl
  have hint : Means L t scope d.base d.mem (.int n) .immediate n := .const rfl
  exact ⟨.position, _, .relabel (.offset hint hslot ⟨hp, hmem⟩), hfree, hx⟩

/-- The same word, with the slot read first. -/
theorem names_spilled {scope : Nat} {n k p x : Int} (hp : L.Free (d.base + k))
    (hmem : d.mem (d.base + k) = p) (hx : p + n = x) (hfree : L.Free x) :
    Names L t scope d (.offset (.spill (.rel k)) (.int n)) x := by
  have hslot : Means L t scope d.base d.mem (.rel k) .relative k := .const rfl
  have hint : Means L t scope d.base d.mem (.int n) .immediate n := .const rfl
  exact ⟨.position, _, .offset (.spill hslot ⟨hp, hmem⟩) hint rfl, hfree, hx⟩

/-! ## One instruction -/

/-- The modes and the numbers that operands mean, one after the other. -/
inductive MeansAll (L : Layout) (t : ScopeTable) (scope : Nat) (base : Int) (mem : Int → Int) :
    List Operand → List Mode → List Int → Prop
  | nil : MeansAll L t scope base mem [] [] []
  | cons {o : Operand} {mode : Mode} {raw : Int} {os : List Operand} {modes : List Mode}
    {raws : List Int} : Means L t scope base mem o mode raw →
    MeansAll L t scope base mem os modes raws →
    MeansAll L t scope base mem (o :: os) (mode :: modes) (raw :: raws)

theorem prepares_all {base : Int} {mem : Int → Int} (hmem : L.Loaded mem) {os : List Operand}
    {modes : List Mode} {raws : List Int} (hos : MeansAll L t site.scope base mem os modes raws)
    {ls : List Lowered} (hls : Emits t site (lowerAll os) ls) :
    ls.map (·.mode) = modes ∧ List.Forall₂ (Prepares L base mem) ls raws ∧
      ls.length = os.length := by
  induction hos generalizing ls with
  | nil =>
    obtain rfl := hls.lowerAll_nil
    exact ⟨rfl, .nil, rfl⟩
  | cons ho _ ih =>
    obtain ⟨l, rest, hl, hrest, rfl⟩ := hls.lowerAll_cons
    obtain ⟨hmode, hprepares⟩ := prepares_of_means hmem ho hl
    obtain ⟨hmodes, hall, hlength⟩ := ih hrest
    refine ⟨?_, .cons hprepares hall, ?_⟩
    · rw [List.map_cons, hmode, hmodes]
    · rw [List.length_cons, List.length_cons, hlength]

/-- The code of an instruction does what one step does, from the machine that stands at the instruction word
and finds the numbers of the operands' meanings behind it. -/
theorem instruction_leads {base : Int} {mem : Int → Int} {q : Queue} (hmem : L.Loaded mem) {op : Opcode}
    {os : List Operand} {modes : List Mode} {raws : List Int}
    (hos : MeansAll L t site.scope base mem os modes raws)
    {items : List Item} (hitems : Emits t site (instruction op os) items) {a : Nat}
    (hcode : L.CodeAt a items) {c' : Config}
    (hstep : ∀ m : Machine, m.ip + .ofNat (1 + os.length) = .ofNat (a + Item.size items) →
      m.base = base → L.Shows mem m → m.memory.get m.ip.toNat = Instruction.encode op modes →
      (∀ i raw, raws[i]? = some raw → m.operand i = raw) →
      ∃ m', m.step Queue.host q = (.ok .proceed, m', c'.queue) ∧ L.Matches c' m' ∧
        ∀ x : Nat, L.scratch x → m'.memory.get x = m.memory.get x) :
    L.Leads (Span a (Item.size items)) ⟨a, base, mem, q⟩ c' := by
  intro m hm
  obtain ⟨ls, hls, rfl⟩ := hitems.instruction
  obtain ⟨hmodes, hprepares, hlength⟩ := prepares_all hmem hos hls
  obtain ⟨m₁, hreach, hm₁, hword, hraws, hkeeps⟩ := instruction_ready hmem hprepares hcode hm
  have hip : m₁.ip + .ofNat (1 + os.length) = .ofNat (a + Item.size (Lowered.instruction op ls)) := by
    rw [hm₁.ip, ← UInt64.ofNat_add, Lowered.size_instruction, hlength]
    simp only [Nat.add_assoc]
  rw [hmodes] at hword
  obtain ⟨m₂, hstep₂, hm₂, hscratch⟩ := hstep m₁ hip hm₁.base hm₁.shows hword hraws
  refine ⟨m₂, hreach.trans (.of_step hstep₂), hm₂, fun x hx hrange => ?_⟩
  rw [hscratch x hx, hkeeps x fun hs => hrange hs.2]

/-- What an operand stands for on a machine with the same data. -/
theorem loads_of_reads {mem : Int → Int} {m : Machine} {mode : Mode} {raw v : Int}
    (hm : L.Shows mem m) (h : L.Reads m.base mem mode raw v) : m.Loads mode raw v := by
  have hsees : Sees L (fun _ => True) m mode raw v := sees_of_reads hm h
  exact hsees m rfl fun _ _ => rfl

/-- A machine after a store to a data word. -/
theorem shows_set {mem : Int → Int} {m : Machine} (hm : L.Shows mem m) (x : Nat) (v : Int)
    (ip : UInt64) :
    L.Shows (Function.update mem x v) { m with memory := m.memory.set x v, ip } := by
  have hrest : ∀ y ≠ x, ¬ (L.scratch y ∧ False) → (m.memory.set x v).get y = m.memory.get y :=
    fun y hy _ => by rw [Memory.get_set, if_neg (Ne.symm hy)]
  exact shows_update hm (by rw [Memory.get_set, if_pos rfl]) hrest

theorem get_set_of_scratch {m : Memory} {x y : Nat} (hx : L.Free x) (hy : L.scratch y) (v : Int) :
    (m.set x v).get y = m.get y := by
  have hne : x ≠ y := by
    rintro rfl
    exact hx.2.2 hy
  rw [Memory.get_set, if_neg hne]

/-- An instruction with two values and a result. -/
theorem binary_leads (hmem : L.Loaded d.mem) {op : Opcode} {f : Int → Int → Int}
    (hf : op.binary? = some f) {o₀ o₁ o₂ : Operand} {v₀ v₁ x : Int}
    (h₀ : Yields L t site.scope d o₀ v₀) (h₁ : Yields L t site.scope d o₁ v₁)
    (h₂ : Names L t site.scope d o₂ x) {items : List Item}
    (hitems : Emits t site (instruction op [o₀, o₁, o₂]) items) {a : Nat}
    (hcode : L.CodeAt a items) :
    L.Leads (Span a (Item.size items)) (d.config a)
      ⟨a + Item.size items, d.base, Function.update d.mem x (f v₀ v₁), d.queue⟩ := by
  have hfree := h₂.free
  obtain ⟨mode₀, raw₀, hmeans₀, hreads₀⟩ := h₀
  obtain ⟨mode₁, raw₁, hmeans₁, hreads₁⟩ := h₁
  obtain ⟨mode₂, raw₂, hmeans₂, hstores⟩ := h₂
  refine instruction_leads hmem (.cons hmeans₀ (.cons hmeans₁ (.cons hmeans₂ .nil))) hitems hcode ?_
  intro m hip hbase hshows hword hoperands
  obtain ⟨-, x, rfl, htargets⟩ := targets_of_stores hbase hstores
  have hload₀ : m.Loads mode₀ (m.operand 0) v₀ := by
    rw [hoperands 0 _ rfl]
    exact loads_of_reads hshows (by rw [hbase]; exact hreads₀)
  have hload₁ : m.Loads mode₁ (m.operand 1) v₁ := by
    rw [hoperands 1 _ rfl]
    exact loads_of_reads hshows (by rw [hbase]; exact hreads₁)
  have htarget : m.Targets mode₂ (m.operand 2) x := by
    rw [hoperands 2 _ rfl]
    exact htargets
  refine ⟨_, Machine.step_binary hf hword hload₀ hload₁ htarget, ⟨?_, hbase, shows_set hshows _ _ _⟩,
    fun y hy => get_set_of_scratch hfree hy _⟩
  exact hip

/-- A copy, in any of its forms. -/
theorem copy_leads (hmem : L.Loaded d.mem) {source target : Operand} {v x : Int}
    (hv : Yields L t site.scope d source v) (hx : Names L t site.scope d target x)
    {items : List Item} (hitems : Emits t site (copy source target) items) {a : Nat}
    (hcode : L.CodeAt a items) :
    L.Leads (Span a (Item.size items)) (d.config a)
      ⟨a + Item.size items, d.base, Function.update d.mem x v, d.queue⟩ := by
  obtain ⟨mode, raw, hmeans, hreads⟩ := hv
  obtain ⟨mode', raw', hmeans', hstores⟩ := hx
  obtain ⟨ls, lt, hls, hlt, hforms⟩ := hitems.copy
  obtain ⟨rfl, hsource⟩ := prepares_of_means hmem hmeans hls
  obtain ⟨rfl, htarget⟩ := prepares_of_means hmem hmeans' hlt
  exact copyForms_leads hmem hsource htarget hforms hcode hreads hstores d.queue

/-- A jump that is taken. -/
theorem jumpOn_leads (hmem : L.Loaded d.mem) (onZero : Bool) {cond target : Operand} {v : Int} {b : Nat}
    (hv : Yields L t site.scope d cond v) (hb : Yields L t site.scope d target b)
    (hlt : b < Memory.addressLimit) (htaken : (v == 0) = onZero) {items : List Item}
    (hitems : Emits t site (instruction (Machine.jumpOn onZero) [cond, target]) items) {a : Nat}
    (hcode : L.CodeAt a items) : L.Leads (Span a (Item.size items)) (d.config a) (d.config b) := by
  obtain ⟨mode₀, raw₀, hmeans₀, hreads₀⟩ := hv
  obtain ⟨mode₁, raw₁, hmeans₁, hreads₁⟩ := hb
  refine instruction_leads hmem (.cons hmeans₀ (.cons hmeans₁ .nil)) hitems hcode ?_
  intro m hip hbase hshows hword hoperands
  have hload₀ : m.Loads mode₀ (m.operand 0) v := by
    rw [hoperands 0 _ rfl]
    exact loads_of_reads hshows (by rw [hbase]; exact hreads₀)
  have hload₁ : m.Loads mode₁ (m.operand 1) b := by
    rw [hoperands 1 _ rfl]
    exact loads_of_reads hshows (by rw [hbase]; exact hreads₁)
  exact ⟨_, Machine.step_jump_taken hword hload₀ hload₁ hlt htaken, ⟨rfl, hbase, hshows⟩,
    fun _ _ => rfl⟩

theorem jump_leads (hmem : L.Loaded d.mem) {target : Operand} {b : Nat}
    (hb : Yields L t site.scope d target b) (hlt : b < Memory.addressLimit) {items : List Item}
    (hitems : Emits t site (jump target) items) {a : Nat} (hcode : L.CodeAt a items) :
    L.Leads (Span a (Item.size items)) (d.config a) (d.config b) := by
  rcases hitems.jump with hitems | ⟨n, hn, hitems⟩
  · exact jumpOn_leads hmem true (yields_int 0) hb hlt rfl hitems hcode
  · exact jumpOn_leads hmem false (yields_int n) hb hlt (by simpa using hn) hitems hcode

theorem adjustBase_leads (hmem : L.Loaded d.mem) {amount : Operand} {v : Int}
    (hv : Yields L t site.scope d amount v) {items : List Item}
    (hitems : Emits t site (adjustBase amount) items) {a : Nat} (hcode : L.CodeAt a items) :
    L.Leads (Span a (Item.size items)) (d.config a)
      ⟨a + Item.size items, d.base + v, d.mem, d.queue⟩ := by
  obtain ⟨mode, raw, hmeans, hreads⟩ := hv
  refine instruction_leads hmem (.cons hmeans .nil) hitems hcode ?_
  intro m hip hbase hshows hword hoperands
  have hload : m.Loads mode (m.operand 0) v := by
    rw [hoperands 0 _ rfl]
    exact loads_of_reads hshows (by rw [hbase]; exact hreads)
  refine ⟨_, Machine.step_adjustBase hword hload, ⟨hip, ?_, hshows⟩, fun _ _ => rfl⟩
  change m.base + v = d.base + v
  rw [hbase]

theorem write_leads (hmem : L.Loaded d.mem) {value : Operand} {v : Int}
    (hv : Yields L t site.scope d value v) {items : List Item}
    (hitems : Emits t site (write value) items) {a : Nat} (hcode : L.CodeAt a items) :
    L.Leads (Span a (Item.size items)) (d.config a)
      ⟨a + Item.size items, d.base, d.mem, { d.queue with written := v :: d.queue.written }⟩ := by
  obtain ⟨mode, raw, hmeans, hreads⟩ := hv
  refine instruction_leads hmem (.cons hmeans .nil) hitems hcode ?_
  intro m hip hbase hshows hword hoperands
  have hload : m.Loads mode (m.operand 0) v := by
    rw [hoperands 0 _ rfl]
    exact loads_of_reads hshows (by rw [hbase]; exact hreads)
  exact ⟨_, Machine.step_write hword hload rfl, ⟨hip, hbase, hshows⟩, fun _ _ => rfl⟩

theorem read_leads (hmem : L.Loaded d.mem) {out : Operand} {x v : Int} {rest : List Int}
    (hx : Names L t site.scope d out x) (hinput : d.queue.inputs = v :: rest) {items : List Item}
    (hitems : Emits t site (readTo out) items) {a : Nat} (hcode : L.CodeAt a items) :
    L.Leads (Span a (Item.size items)) (d.config a)
      ⟨a + Item.size items, d.base, Function.update d.mem x v,
        { d.queue with inputs := rest }⟩ := by
  have hfree := hx.free
  obtain ⟨mode, raw, hmeans, hstores⟩ := hx
  refine instruction_leads hmem (.cons hmeans .nil) hitems hcode ?_
  intro m hip hbase hshows hword hoperands
  obtain ⟨-, x, rfl, htargets⟩ := targets_of_stores hbase hstores
  have htarget : m.Targets mode (m.operand 0) x := by
    rw [hoperands 0 _ rfl]
    exact htargets
  have hread : Queue.host.read d.queue = (.ok (v, .proceed), { d.queue with inputs := rest }) := by
    simp [Queue.host, Queue.pausingHost, hinput]
  exact ⟨_, Machine.step_read hword htarget hread, ⟨hip, hbase, shows_set hshows _ _ _⟩,
    fun y hy => get_set_of_scratch hfree hy _⟩

/-- A word of an instruction that never changes, as a machine finds it. -/
theorem get_of_cellAt {mem : Int → Int} (hmem : L.Loaded mem) {c : Nat} {w : Word}
    (hc : L.CellAt c (.plain w)) {v : Int} (hw : Assembly.evaluate L.addresses w = .ok v) {m : Machine}
    (hm : L.Shows mem m) : m.memory.get c = v := by
  obtain ⟨v', hv', hfrozen⟩ : ∃ v', Assembly.evaluate L.addresses w = .ok v' ∧ L.frozen c = some v' :=
    hc.2
  obtain rfl := Except.ok.inj (hw.symm.trans hv')
  rw [hm c (L.not_scratch_of_frozen hfrozen)]
  exact hmem hfrozen

/-- A test and a branch on it. The outcome goes through the first operand word of the branch, which the test
writes: no data word changes. -/
theorem branch_runs (hmem : L.Loaded d.mem) {op : Opcode} {f : Int → Int → Int}
    (hf : op.binary? = some f) {o₀ o₁ : Operand} {v₀ v₁ : Int}
    (h₀ : Yields L t site.scope d o₀ v₀) (h₁ : Yields L t site.scope d o₁ v₁) {flag target : Label}
    {b : Nat} (hb : L.addresses[target.index]? = some b) (hlt : b < Memory.addressLimit)
    {onZero : Bool} {test branch : List Item}
    (htest : Emits t site (instruction op [o₀, o₁, .wordAt flag]) test)
    (hbranch : Emits t site (instruction (Machine.jumpOn onZero)
      [.patched .immediate flag, .addressOf target]) branch)
    {a : Nat} (hcode : L.CodeAt a (test ++ branch)) :
    L.Runs (d.config a)
      (d.config (if (f v₀ v₁ == 0) = onZero then b else a + Item.size (test ++ branch))) := by
  intro m hm
  rw [codeAt_append] at hcode
  obtain ⟨hcode₁, hcode₂⟩ := hcode
  -- the branch is three words; its middle one is the flag
  obtain ⟨ls, hls, rfl⟩ := hbranch.instruction
  obtain ⟨lflag, ls₁, hlflag, hls₁, rfl⟩ := hls.lowerAll_cons
  obtain ⟨ltarget, ls₂, hltarget, hls₂, rfl⟩ := hls₁.lowerAll_cons
  obtain rfl := hls₂.lowerAll_nil
  obtain rfl := hlflag.pure
  obtain rfl := hltarget.pure
  obtain ⟨hword, hflag, htarget, -⟩ := hcode₂
  obtain ⟨hc, hscratch, hstore⟩ := targets_of_cellAt hflag m
  -- the test writes it
  obtain ⟨mode₀, raw₀, hmeans₀, hreads₀⟩ := h₀
  obtain ⟨mode₁, raw₁, hmeans₁, hreads₁⟩ := h₁
  obtain ⟨ls, hls, rfl⟩ := htest.instruction
  obtain ⟨l₀, ls₁, hl₀, hls₁, rfl⟩ := hls.lowerAll_cons
  obtain ⟨l₁, ls₂, hl₁, hls₂, rfl⟩ := hls₁.lowerAll_cons
  obtain ⟨l₂, ls₃, hl₂, hls₃, rfl⟩ := hls₂.lowerAll_cons
  obtain rfl := hls₃.lowerAll_nil
  obtain rfl := hl₂.pure
  obtain ⟨rfl, hp₀⟩ := prepares_of_means hmem hmeans₀ hl₀
  obtain ⟨rfl, hp₁⟩ := prepares_of_means hmem hmeans₁ hl₁
  have hbase₀ : m.base = d.base := hm.base
  rw [← hbase₀] at hreads₀ hreads₁
  obtain ⟨m₁, hreach, hip, hbase, hget, hrest⟩ :=
    binary_runs hmem hf hp₀ hp₁ (prepares_wordAt hmem hc) hcode₁ hm
      (sees_of_reads hm.shows hreads₀) (sees_of_reads hm.shows hreads₁) hstore
  have hshows : L.Shows d.mem m₁ := (keeps_of_written hscratch hrest).shows hm.shows
  -- the branch reads it
  have hword₁ : m₁.memory.get m₁.ip.toNat =
      Instruction.encode (Machine.jumpOn onZero) [.immediate, .immediate] := by
    rw [Machine.toNat_ip hip hword.lt]
    exact get_of_cellAt hmem hword rfl hshows
  have hload₀ : m₁.Loads .immediate (m₁.operand 0) (f v₀ v₁) := by
    rw [Machine.operand_eq_get hip hflag.lt]
    exact hget
  have hload₁ : m₁.Loads .immediate (m₁.operand 1) b := by
    rw [Machine.operand_eq_get hip htarget.lt]
    exact get_of_cellAt hmem htarget (by simp only [Assembly.evaluate, hb]) hshows
  by_cases htaken : (f v₀ v₁ == 0) = onZero
  · rw [if_pos htaken]
    have hstep : m₁.step Queue.host d.queue = _ :=
      Machine.step_jump_taken hword₁ hload₀ hload₁ hlt htaken
    exact ⟨_, hreach.trans (.of_step hstep), ⟨rfl, hbase, hshows⟩, fun _ _ h => (h trivial).elim⟩
  · rw [if_neg htaken]
    have hstep : m₁.step Queue.host d.queue = _ :=
      Machine.step_jump_passed hword₁ hload₀ hload₁ (by cases onZero <;> simpa using htaken)
    refine ⟨_, hreach.trans (.of_step hstep), ⟨?_, hbase, hshows⟩, fun _ _ h => (h trivial).elim⟩
    change m₁.ip + 3 = _
    rw [hip, Item.size_append, ← Nat.add_assoc]
    exact (UInt64.ofNat_add _ 3).symm

/-! ## Sequences -/

/-- The code that the computation writes stands in memory from `a` up to `a'`. -/
def Stands (L : Layout) (t : ScopeTable) (site : Site) (e : Emit (List Item)) (a a' : Nat) : Prop :=
  ∃ items, Emits t site e items ∧ L.CodeAt a items ∧ a' = a + Item.size items

theorem Stands.concat_nil {a a' : Nat} (h : Stands L t site (concat []) a a') : a' = a := by
  obtain ⟨items, hitems, -, rfl⟩ := h
  rw [hitems.concat_nil]
  rfl

theorem Stands.concat_cons {e : Emit (List Item)} {es : List (Emit (List Item))} {a a'' : Nat}
    (he : Steady e) (h : Stands L t site (concat (e :: es)) a a'') :
    ∃ a', Stands L t site e a a' ∧ Stands L t site (concat es) a' a'' := by
  obtain ⟨items, hitems, hcode, rfl⟩ := h
  obtain ⟨first, rest, hfirst, hrest, rfl⟩ := hitems.concat_cons he
  rw [codeAt_append] at hcode
  refine ⟨_, ⟨first, hfirst, hcode.1, rfl⟩, rest, hrest, hcode.2, ?_⟩
  rw [Item.size_append, Nat.add_assoc]

theorem Stands.concat_append (es : List (Emit (List Item))) {es' : List (Emit (List Item))} {a a'' : Nat}
    (hes : Steady (concat es))
    (h : Stands L t site (concat (es ++ es')) a a'') :
    ∃ a', Stands L t site (concat es) a a' ∧ Stands L t site (concat es') a' a'' := by
  obtain ⟨items, hitems, hcode, rfl⟩ := h
  obtain ⟨first, rest, hfirst, hrest, rfl⟩ := hitems.concat_append hes
  rw [codeAt_append] at hcode
  refine ⟨_, ⟨first, hfirst, hcode.1, rfl⟩, rest, hrest, hcode.2, ?_⟩
  rw [Item.size_append, Nat.add_assoc]

theorem Stands.placeLabel {l : Label} {a a' : Nat} (h : Stands L t site (placeLabel l) a a') :
    a' = a ∧ L.addresses[l.index]? = some a := by
  obtain ⟨items, hitems, hcode, rfl⟩ := h
  obtain rfl := hitems.placeLabel
  exact ⟨rfl, hcode.1⟩

theorem Stands.fresh {name : String} {f : Label → Emit (List Item)} {a a' : Nat}
    (h : Stands L t site (Emit.fresh name >>= f) a a') : ∃ l, Stands L t site (f l) a a' := by
  obtain ⟨items, hitems, hplaced⟩ := h
  obtain ⟨l, -, hitems⟩ := hitems.bind (.fresh _)
  exact ⟨l, items, hitems, hplaced⟩

/-- The variables of an instruction that was written resolve. -/
theorem Stands.resolves {op : Opcode} {os : List Operand} {a a' : Nat}
    (h : Stands L t site (instruction op os) a a') :
    ∀ o ∈ os, ∀ name ∈ o.vars, ∃ r, t.resolve site.scope name = some r := by
  obtain ⟨items, hitems, -⟩ := h
  obtain ⟨ls, hls, -⟩ := hitems.instruction
  exact hls.resolves_all

theorem Stands.resolves_source {source target : Operand} {a a' : Nat}
    (h : Stands L t site (copy source target) a a') :
    ∀ name ∈ source.vars, ∃ r, t.resolve site.scope name = some r := by
  obtain ⟨items, hitems, -⟩ := h
  obtain ⟨ls, lt, hls, -⟩ := hitems.copy
  exact hls.resolves

/-- A test and a branch on it that stand one behind the other. -/
theorem Stands.branch (hmem : L.Loaded d.mem) {op : Opcode} {f : Int → Int → Int}
    (hf : op.binary? = some f) {o₀ o₁ : Operand} {v₀ v₁ : Int}
    (h₀ : Yields L t site.scope d o₀ v₀) (h₁ : Yields L t site.scope d o₁ v₁) {flag target : Label}
    {b : Nat} (hb : L.addresses[target.index]? = some b) (hlt : b < Memory.addressLimit)
    (onZero : Bool) {a a₁ a₂ : Nat} (htest : Stands L t site (instruction op [o₀, o₁, .wordAt flag]) a a₁)
    (hbranch : Stands L t site (instruction (Machine.jumpOn onZero)
      [.patched .immediate flag, .addressOf target]) a₁ a₂) :
    L.Runs (d.config a) (d.config (if (f v₀ v₁ == 0) = onZero then b else a₂)) := by
  obtain ⟨test, htest, hcode, rfl⟩ := htest
  obtain ⟨branch, hbranch, hcode', rfl⟩ := hbranch
  rw [Nat.add_assoc, ← Item.size_append]
  exact branch_runs hmem hf h₀ h₁ hb hlt htest hbranch (codeAt_append.2 ⟨hcode, hcode'⟩)

/-- The code runs from its first word to the word behind its last one. -/
structure Falls (L : Layout) (t : ScopeTable) (site : Site) (e : Emit (List Item)) (d d' : Data) :
    Prop where
  steady : Steady e
  runs : ∀ {a a' : Nat}, Stands L t site e a a' → L.Runs (d.config a) (d'.config a')

/-- The code goes to the configuration `c` in the end, wherever it stands. -/
structure Exits (L : Layout) (t : ScopeTable) (site : Site) (e : Emit (List Item)) (d : Data) (c : Config) :
    Prop where
  runs : ∀ {a a' : Nat}, Stands L t site e a a' → L.Runs (d.config a) c

theorem Falls.nil : Falls L t site (concat []) d d where
  steady := .pure _
  runs h := by
    rw [h.concat_nil]
    exact .refl _

theorem Falls.cons {e : Emit (List Item)} {es : List (Emit (List Item))} (h : Falls L t site e d d')
    (k : Falls L t site (concat es) d' d'') : Falls L t site (concat (e :: es)) d d'' where
  steady := .bind h.steady fun _ => .bind k.steady fun _ => .pure _
  runs hcode := by
    obtain ⟨a', hfirst, hrest⟩ := hcode.concat_cons h.steady
    exact (h.runs hfirst).trans (k.runs hrest)

theorem Falls.append {es es' : List (Emit (List Item))} (h : Falls L t site (concat es) d d')
    (k : Falls L t site (concat es') d' d'') : Falls L t site (concat (es ++ es')) d d'' where
  steady := .concat_append h.steady k.steady
  runs hcode := by
    obtain ⟨a', hfirst, hrest⟩ := hcode.concat_append _ h.steady
    exact (h.runs hfirst).trans (k.runs hrest)

theorem Exits.append {es es' : List (Emit (List Item))} {c : Config} (h : Falls L t site (concat es) d d')
    (k : Exits L t site (concat es') d' c) : Exits L t site (concat (es ++ es')) d c where
  runs hcode := by
    obtain ⟨a', hfirst, hrest⟩ := hcode.concat_append _ h.steady
    exact (h.runs hfirst).trans (k.runs hrest)

theorem Exits.cons {e : Emit (List Item)} {es : List (Emit (List Item))} {c : Config}
    (h : Falls L t site e d d') (k : Exits L t site (concat es) d' c) :
    Exits L t site (concat (e :: es)) d c where
  runs hcode := by
    obtain ⟨a', hfirst, hrest⟩ := hcode.concat_cons h.steady
    exact (h.runs hfirst).trans (k.runs hrest)

theorem Exits.last {e : Emit (List Item)} {c : Config} (he : Steady e) (h : Exits L t site e d c) :
    Exits L t site (concat [e]) d c where
  runs hcode := by
    obtain ⟨a', hfirst, -⟩ := hcode.concat_cons he
    exact h.runs hfirst

theorem falls_binary (hmem : L.Loaded d.mem) {op : Opcode} {f : Int → Int → Int}
    (hf : op.binary? = some f) {o₀ o₁ o₂ : Operand} {v₀ v₁ x : Int}
    (h₀ : Yields L t site.scope d o₀ v₀) (h₁ : Yields L t site.scope d o₁ v₁)
    (h₂ : Names L t site.scope d o₂ x) :
    Falls L t site (instruction op [o₀, o₁, o₂]) d
      ⟨d.base, Function.update d.mem x (f v₀ v₁), d.queue⟩ where
  steady := .instruction _ _
  runs := by
    rintro a a' ⟨items, hitems, hcode, rfl⟩
    exact (binary_leads hmem hf h₀ h₁ h₂ hitems hcode).runs

theorem falls_copy (hmem : L.Loaded d.mem) {source target : Operand} {v x : Int}
    (hv : Yields L t site.scope d source v) (hx : Names L t site.scope d target x) :
    Falls L t site (copy source target) d ⟨d.base, Function.update d.mem x v, d.queue⟩ where
  steady := .copy _ _
  runs := by
    rintro a a' ⟨items, hitems, hcode, rfl⟩
    exact (copy_leads hmem hv hx hitems hcode).runs

/-- Both forms of an addition in place add to the word. -/
theorem falls_addTo (hmem : L.Loaded d.mem) {amount out : Operand} {v x : Int}
    (hv : Yields L t site.scope d amount v) (hx : Names L t site.scope d out x) :
    Falls L t site (addTo amount out) d
      ⟨d.base, Function.update d.mem x (d.mem x + v), d.queue⟩ where
  steady := .addTo _ _
  runs := by
    rintro a a' ⟨items, hitems, hcode, rfl⟩
    rcases hitems.addTo with hitems | hitems
    · exact (binary_leads hmem rfl hx.yields hv hx hitems hcode).runs
    · rw [Int.add_comm]
      exact (binary_leads hmem rfl hv hx.yields hx hitems hcode).runs

theorem falls_moveStack (hmem : L.Loaded d.mem) (n : Int) :
    Falls L t site (moveStack n) d ⟨d.base + n, d.mem, d.queue⟩ where
  steady := .moveStack _
  runs := by
    rintro a a' ⟨items, hitems, hcode, rfl⟩
    exact (adjustBase_leads hmem (yields_int n) hitems hcode).runs

theorem falls_write (hmem : L.Loaded d.mem) {value : Operand} {v : Int}
    (hv : Yields L t site.scope d value v) :
    Falls L t site (write value) d
      ⟨d.base, d.mem, { d.queue with written := v :: d.queue.written }⟩ where
  steady := .instruction _ _
  runs := by
    rintro a a' ⟨items, hitems, hcode, rfl⟩
    exact (write_leads hmem hv hitems hcode).runs

theorem falls_read (hmem : L.Loaded d.mem) {out : Operand} {x v : Int} {rest : List Int}
    (hx : Names L t site.scope d out x) (hinput : d.queue.inputs = v :: rest) :
    Falls L t site (readTo out) d
      ⟨d.base, Function.update d.mem x v, { d.queue with inputs := rest }⟩ where
  steady := .instruction _ _
  runs := by
    rintro a a' ⟨items, hitems, hcode, rfl⟩
    exact (read_leads hmem hx hinput hitems hcode).runs

theorem exits_jump (hmem : L.Loaded d.mem) {target : Operand} {b : Nat}
    (hb : Yields L t site.scope d target b) (hlt : b < Memory.addressLimit) :
    Exits L t site (jump target) d (d.config b) where
  runs := by
    rintro a a' ⟨items, hitems, hcode, rfl⟩
    exact (jump_leads hmem hb hlt hitems hcode).runs

end Lamcode
