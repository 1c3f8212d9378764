import LibdftDr.Library.FirstWins
import LibdftDr.Sdft.Summaries
import LibdftDr.Sinks.PcRanges

/-!
# Which functions are wrapped

At each module load the hook enumerates the symbols of the module and wraps every function that
has a summary, once an address. The body of a wrapped function is registered with the MNT
consumer, so that its instructions are not instrumented: the summary stands for them.

The hook lives in the process of `MntStep`; `instrumented_or_summarised` is what the two
together guarantee.
-/
namespace LibdftDr
open Library

inductive DrsymError where
  | success | lineNotAvailable | other
  deriving DecidableEq

/-- The fields of `drsym_info_t` that are read. -/
structure SymInfo where
  status : DrsymError
  name : Option Text
  startOffs : UINT64
  endOffs : UINT64

/-- What the load handler learns about a module. -/
structure HookModule extends ModuleData where
  /-- `dr_memory_is_dr_internal` or `dr_memory_is_in_client`. -/
  internal : Bool
  /-- In the order in which `drsym` enumerates them. -/
  symbols : List SymInfo
  /-- `dr_get_proc_address`, zero for `NULL`. -/
  procAddress : Text → ADDRINT

/-- A call of `drwrap_wrap_ex` with `sdft_pre`. -/
structure Wrap where
  funcPc : ADDRINT
  sum : SummaryEntry

structure HookState where
  active : Bool
  table : SummaryTable
  wrapped : Finset ADDRINT
  wraps : List Wrap
  interceptedRtns : UINT64
  ifuncResolved : UINT64
  /-- The MNT consumer in its process. -/
  world : MntWorld

namespace HookState

def addRtnRange (s : HookState) (owner : ModuleData) (low high : ADDRINT) : HookState :=
  { s with world := s.world.addRtnRange owner low high }

/-- The range of a function that is not redirected, or the count of those that are. -/
def noteBody (info : HookModule) (sym : SymInfo) (funcPc : ADDRINT) (s : HookState) : HookState :=
  if funcPc = info.start + sym.startOffs then
    if sym.startOffs < sym.endOffs then
      s.addRtnRange info.toModuleData funcPc (info.start + sym.endOffs)
    else s
  else { s with ifuncResolved := s.ifuncResolved + 1 }

/-- The part of `enum_sym_cb` after a summary is found. -/
def intercept (info : HookModule) (sym : SymInfo) (sum : SummaryEntry) (s : HookState) :
    HookState :=
  let symtabPc := info.start + sym.startOffs
  let resolved := info.procAddress (sym.name.getD [])
  let funcPc := if resolved ≠ 0 then resolved else symtabPc
  if funcPc ∈ s.wrapped then s
  else
    let s := noteBody info sym funcPc { s with
      wrapped := insert funcPc s.wrapped
      interceptedRtns := s.interceptedRtns + 1 }
    { s with wraps := s.wraps ++ [⟨funcPc, sum⟩] }

/-- Every symbol is looked at: the callback always asks for the next one. -/
def enumSymCb (info : HookModule) (s : HookState) (sym : SymInfo) : HookState :=
  if sym.status ≠ .success ∧ sym.status ≠ .lineNotAvailable then s
  else if sym.name.getD [] = [] then s
  else
    match s.table.find (sym.name.getD []) with
    | none => s
    | some sum => s.intercept info sym sum

/-- The hook's part of a module load. -/
def eventModuleLoad (info : HookModule) (s : HookState) : HookState :=
  if info.fullPath.getD [] = [] then s
  else if info.internal then s
  else info.symbols.foldl (enumSymCb info) s

/-- A process in which nothing has happened. -/
def start (policy : Policy) : HookState := ⟨false, .new, ∅, [], 0, 0, MntWorld.init policy⟩

/-- `drsymInit` is whether `drsym` comes up, `conf` the configuration file if it opens. -/
def init (drsymInit : Bool) (conf : Option Text) (s : HookState) : HookState :=
  if drsymInit then
    match loadSummaries conf s.table with
    | (true, table) => { s with table := table, active := true }
    | (false, table) => { s with table := table }
  else s

/-- The consumer's handler is registered before the hook's. -/
def load (host : Host) (info : HookModule) (s : HookState) : HookState :=
  let s := { s with world := s.world.load host info.toModuleData }
  if s.active then s.eventModuleLoad info else s

/-- The summary that runs when the function at `pc` is entered. -/
def summaryAt (s : HookState) (pc : ADDRINT) : Option SummaryEntry :=
  (s.wraps.find? fun w => decide (w.funcPc = pc)).map (·.sum)

end HookState

inductive HookEvent where
  | load (host : Host) (info : HookModule)
  | unload (info : ModuleData)
  | isMnt (pc : ADDRINT)

/-- Modules come and go at disjoint addresses; instructions are looked up in between. -/
inductive HookStep (s : HookState) : HookEvent → HookState → Prop
  | load {host info} (nonempty : info.start < info.stop)
      (apart : ∀ m ∈ s.world.loaded, m.Apart info.toModuleData) :
    HookStep s (.load host info) (s.load host info)
  | unload {info} (present : info ∈ s.world.loaded) :
    HookStep s (.unload info) { s with world := s.world.unload info }
  | isMnt {pc b mnt} (answer : MntState.isMnt pc s.world.mnt = .ok (b, mnt)) :
    HookStep s (.isMnt pc) { s with world := { s.world with mnt := mnt } }

/-! ## The functions that could be wrapped -/

/-- A symbol with a summary, in the module it was found in. -/
structure Target where
  owner : HookModule
  sym : SymInfo
  sum : SummaryEntry

namespace Target

def symtabPc (t : Target) : ADDRINT := t.owner.start + t.sym.startOffs

/-- Where the loader says the function is, else where the symbol table does. -/
def funcPc (t : Target) : ADDRINT :=
  if t.owner.procAddress (t.sym.name.getD []) ≠ 0 then t.owner.procAddress (t.sym.name.getD [])
  else t.symtabPc

def wrap (t : Target) : Wrap := ⟨t.funcPc, t.sum⟩

/-- The loader's address is not that of the symbol table. -/
def ifunc (t : Target) : Bool := t.funcPc != t.symtabPc

/-- The range registered for the function, unless the symbol is a resolver or has no extent. -/
def body (t : Target) : Option (ModuleData × RtnRange) :=
  if t.funcPc = t.symtabPc ∧ t.sym.startOffs < t.sym.endOffs ∧
      t.funcPc < t.owner.start + t.sym.endOffs then
    some (t.owner.toModuleData, t.funcPc, t.owner.start + t.sym.endOffs)
  else none

/-- What the hook makes of a symbol. -/
def ofSym (table : SummaryTable) (info : HookModule) (sym : SymInfo) : Option Target :=
  if sym.status ≠ .success ∧ sym.status ≠ .lineNotAvailable then none
  else if sym.name.getD [] = [] then none
  else (table.find (sym.name.getD [])).map fun sum => ⟨info, sym, sum⟩

variable {t : Target} {table : SummaryTable} {info : HookModule} {sym : SymInfo}

/-- A target carries the summary found under the name of its own symbol. -/
theorem of_ofSym (h : ofSym table info sym = some t) :
    t.owner = info ∧ t.sym = sym ∧ table.find (sym.name.getD []) = some t.sum := by
  unfold ofSym at h
  split_ifs at h
  obtain ⟨sum, found, rfl⟩ := Option.map_eq_some_iff.mp h
  exact ⟨rfl, rfl, found⟩

theorem of_body {r : ModuleData × RtnRange} (h : t.body = some r) :
    t.funcPc = t.symtabPc ∧
      r = (t.owner.toModuleData, t.funcPc, t.owner.start + t.sym.endOffs) := by
  unfold body at h
  split_ifs at h with found
  exact ⟨found.1, (Option.some.inj h).symm⟩

end Target

/-- The targets of a module, unless it is skipped. -/
def HookModule.targets (table : SummaryTable) (info : HookModule) : List Target :=
  if info.fullPath.getD [] = [] ∨ info.internal = true then []
  else info.symbols.filterMap (Target.ofSym table info)

/-- The targets of all loads, in the order in which the hook sees them. -/
def targetsOf (table : SummaryTable) (events : List HookEvent) : List Target :=
  events.flatMap fun
    | .load _ info => info.targets table
    | _ => []

/-! ## One symbol -/

namespace HookState

variable {s : HookState} {info : HookModule} {sym : SymInfo} {t : Target} {ts : List Target}

/-- The state after a function is wrapped. -/
def wrapTarget (s : HookState) (t : Target) : HookState :=
  { s with
    wrapped := insert t.funcPc s.wrapped
    wraps := s.wraps ++ [t.wrap]
    interceptedRtns := s.interceptedRtns + 1
    ifuncResolved := if t.ifunc then s.ifuncResolved + 1 else s.ifuncResolved
    world := t.body.elim s.world fun r => s.world.addRtnRange r.1 r.2.1 r.2.2 }

theorem addRtnRange_empty {w : MntWorld} {owner : ModuleData} {low high : ADDRINT}
    (h : high ≤ low) : w.addRtnRange owner low high = w := by
  simp [MntWorld.addRtnRange, MntState.addRtnRange, h]

theorem noteBody_eq (s : HookState) (t : Target) :
    s.noteBody t.owner t.sym t.funcPc =
      { s with
        ifuncResolved := if t.ifunc then s.ifuncResolved + 1 else s.ifuncResolved
        world := t.body.elim s.world fun r => s.world.addRtnRange r.1 r.2.1 r.2.2 } := by
  rw [noteBody, show t.owner.start + t.sym.startOffs = t.symtabPc from rfl]
  by_cases same : t.funcPc = t.symtabPc
  · have direct : t.ifunc = false := bne_eq_false_iff_eq.mpr same
    rw [if_pos same]
    by_cases extent : t.sym.startOffs < t.sym.endOffs
    · by_cases room : t.funcPc < t.owner.start + t.sym.endOffs
      · have body : t.body = some _ := if_pos ⟨same, extent, room⟩
        rw [if_pos extent, body, direct]
        rfl
      · have body : t.body = none := if_neg fun h => room h.2.2
        rw [if_pos extent, body, direct, addRtnRange, addRtnRange_empty (BitVec.not_lt.mp room)]
        rfl
    · have body : t.body = none := if_neg fun h => extent h.2.1
      rw [if_neg extent, body, direct]
      rfl
  · have moved : t.ifunc = true := bne_iff_ne.mpr same
    have body : t.body = none := if_neg fun h => same h.1
    rw [if_neg same, body, moved]
    rfl

theorem intercept_eq (s : HookState) (t : Target) :
    s.intercept t.owner t.sym t.sum = if t.funcPc ∈ s.wrapped then s else s.wrapTarget t := by
  have code : s.intercept t.owner t.sym t.sum =
      if t.funcPc ∈ s.wrapped then s
      else
        let s := noteBody t.owner t.sym t.funcPc { s with
          wrapped := insert t.funcPc s.wrapped
          interceptedRtns := s.interceptedRtns + 1 }
        { s with wraps := s.wraps ++ [t.wrap] } := rfl
  rw [code, noteBody_eq]
  rfl

/-- A symbol is passed over, or its address is taken, or it is wrapped. -/
theorem enumSymCb_cases (s : HookState) (info : HookModule) (sym : SymInfo) :
    (Target.ofSym s.table info sym = none ∧ enumSymCb info s sym = s) ∨
    ∃ t, Target.ofSym s.table info sym = some t ∧
      enumSymCb info s sym = if t.funcPc ∈ s.wrapped then s else s.wrapTarget t := by
  unfold enumSymCb Target.ofSym
  by_cases status : sym.status ≠ .success ∧ sym.status ≠ .lineNotAvailable
  · rw [if_pos status, if_pos status]
    exact .inl ⟨rfl, rfl⟩
  rw [if_neg status, if_neg status]
  by_cases nameless : sym.name.getD [] = []
  · rw [if_pos nameless, if_pos nameless]
    exact .inl ⟨rfl, rfl⟩
  rw [if_neg nameless, if_neg nameless]
  cases s.table.find (sym.name.getD []) with
  | none => exact .inl ⟨rfl, rfl⟩
  | some sum => exact .inr ⟨⟨info, sym, sum⟩, rfl, intercept_eq s ⟨info, sym, sum⟩⟩

/-! ## What is kept over a run -/

/-- The state of the hook after the targets `ts`: of each address the first is wrapped, and its
body registered. -/
structure Kept (ts : List Target) (s : HookState) : Prop where
  wrapped : ∀ pc, pc ∈ s.wrapped ↔ pc ∈ (firsts Target.funcPc ts).map Target.funcPc
  wraps : s.wraps = (firsts Target.funcPc ts).map Target.wrap
  registered : s.world.registered = (firsts Target.funcPc ts).filterMap Target.body
  interceptedRtns : s.interceptedRtns = BitVec.ofNat 64 (firsts Target.funcPc ts).length
  ifuncResolved : s.ifuncResolved = BitVec.ofNat 64 ((firsts Target.funcPc ts).countP Target.ifunc)

theorem wrapTarget_registered (s : HookState) (t : Target) :
    (s.wrapTarget t).world.registered = s.world.registered ++ t.body.toList := by
  cases hb : t.body with
  | none => simp [wrapTarget, hb]
  | some r =>
    have room : ¬ r.2.2 ≤ r.2.1 := by
      unfold Target.body at hb
      split_ifs at hb with found
      obtain rfl := Option.some.inj hb
      exact BitVec.not_le.mpr found.2.2
    simp [wrapTarget, hb, MntWorld.addRtnRange, room]

/-- One target more: it is the first with its address, or nothing changes. -/
theorem Kept.target (h : Kept ts s) (t : Target) :
    Kept (ts ++ [t]) (if t.funcPc ∈ s.wrapped then s else s.wrapTarget t) := by
  by_cases taken : t.funcPc ∈ s.wrapped
  · have same : firsts Target.funcPc (ts ++ [t]) = firsts Target.funcPc ts := by
      rw [firsts_concat, keepFirst_taken ((h.wrapped t.funcPc).mp taken)]
    rw [if_pos taken]
    exact ⟨same ▸ h.wrapped, same ▸ h.wraps, same ▸ h.registered, same ▸ h.interceptedRtns,
      same ▸ h.ifuncResolved⟩
  · have more : firsts Target.funcPc (ts ++ [t]) = firsts Target.funcPc ts ++ [t] := by
      rw [firsts_concat, keepFirst_fresh (mt (h.wrapped t.funcPc).mpr taken)]
    rw [if_neg taken]
    refine ⟨fun pc => ?_, ?_, ?_, ?_, ?_⟩
    · simp only [wrapTarget, Finset.mem_insert, h.wrapped, more, List.map_append, List.mem_append,
        List.map_singleton, List.mem_singleton]
      exact or_comm
    · rw [more, List.map_append, ← h.wraps]
      rfl
    · rw [wrapTarget_registered, more, List.filterMap_append, ← h.registered]
      cases hb : t.body <;> simp [hb]
    · rw [more, List.length_append, BitVec.ofNat_add, ← h.interceptedRtns]
      rfl
    · rw [more, List.countP_append, BitVec.ofNat_add, ← h.ifuncResolved]
      cases hi : t.ifunc <;> simp [wrapTarget, hi]

theorem Kept.enumSymCb (h : Kept ts s) (info : HookModule) (sym : SymInfo) :
    Kept (ts ++ (Target.ofSym s.table info sym).toList) (s.enumSymCb info sym) := by
  obtain ⟨passed, same⟩ | ⟨t, found, next⟩ := enumSymCb_cases s info sym
  · rw [passed, same]
    simpa using h
  · rw [found, next]
    exact h.target t

theorem enumSymCb_table (s : HookState) (info : HookModule) (sym : SymInfo) :
    (s.enumSymCb info sym).table = s.table ∧ (s.enumSymCb info sym).active = s.active := by
  obtain ⟨-, same⟩ | ⟨t, -, next⟩ := enumSymCb_cases s info sym
  · rw [same]
    exact ⟨rfl, rfl⟩
  · rw [next]
    split_ifs <;> exact ⟨rfl, rfl⟩

theorem Kept.enumerate (info : HookModule) (syms : List SymInfo) (h : Kept ts s) :
    Kept (ts ++ syms.filterMap (Target.ofSym s.table info)) (syms.foldl (.enumSymCb info) s) ∧
      (syms.foldl (.enumSymCb info) s).table = s.table ∧
      (syms.foldl (.enumSymCb info) s).active = s.active := by
  induction syms generalizing s ts with
  | nil => simpa using h
  | cons sym syms ih =>
    obtain ⟨table, active⟩ := enumSymCb_table s info sym
    obtain ⟨kept, table', active'⟩ := ih (h.enumSymCb info sym)
    refine ⟨?_, table'.trans table, active'.trans active⟩
    have split : (sym :: syms).filterMap (Target.ofSym s.table info) =
        (Target.ofSym s.table info sym).toList ++ syms.filterMap (Target.ofSym s.table info) := by
      cases found : Target.ofSym s.table info sym <;> simp [found]
    rw [split, ← List.append_assoc]
    rw [table] at kept
    exact kept

/-- The targets that the hook sees: none if it is not active. -/
def seen (s : HookState) (events : List HookEvent) : List Target :=
  if s.active then targetsOf s.table events else []

theorem Kept.load (h : Kept ts s) (host : Host) (info : HookModule) :
    Kept (ts ++ s.seen [.load host info]) (s.load host info) ∧
      (s.load host info).table = s.table ∧ (s.load host info).active = s.active := by
  have loaded : Kept ts { s with world := s.world.load host info.toModuleData } :=
    ⟨h.wrapped, h.wraps, h.registered, h.interceptedRtns, h.ifuncResolved⟩
  have one : targetsOf s.table [.load host info] = info.targets s.table := by simp [targetsOf]
  unfold HookState.load seen
  by_cases active : s.active = true
  · rw [if_pos active, if_pos active, one, eventModuleLoad, HookModule.targets]
    by_cases nameless : info.fullPath.getD [] = []
    · simpa [nameless] using loaded
    · by_cases internal : info.internal = true
      · simpa [internal] using loaded
      · simpa [nameless, internal] using loaded.enumerate info info.symbols
  · simpa [active] using loaded

theorem Kept.step {e : HookEvent} {s' : HookState} (h : Kept ts s) (step : HookStep s e s') :
    Kept (ts ++ s.seen [e]) s' ∧ s'.table = s.table ∧ s'.active = s.active := by
  cases step with
  | load nonempty apart => exact h.load _ _
  | @unload info present =>
    have nothing : s.seen [.unload info] = [] := by simp [seen, targetsOf]
    rw [nothing, List.append_nil]
    exact ⟨⟨h.wrapped, h.wraps, h.registered, h.interceptedRtns, h.ifuncResolved⟩, rfl, rfl⟩
  | @isMnt pc b mnt answer =>
    have nothing : s.seen [.isMnt pc] = [] := by simp [seen, targetsOf]
    rw [nothing, List.append_nil]
    exact ⟨⟨h.wrapped, h.wraps, h.registered, h.interceptedRtns, h.ifuncResolved⟩, rfl, rfl⟩

/-- A process that has set up the hook. -/
def started (policy : Policy) (drsymInit : Bool) (conf : Option Text) : HookState :=
  (start policy).init drsymInit conf

theorem started_eq (policy : Policy) (drsymInit : Bool) (conf : Option Text) :
    ∃ active table, started policy drsymInit conf =
      { start policy with active := active, table := table } := by
  unfold started init
  split_ifs
  · split
    · exact ⟨true, _, rfl⟩
    · exact ⟨false, _, rfl⟩
  · exact ⟨false, .new, rfl⟩

theorem started_world (policy : Policy) (drsymInit : Bool) (conf : Option Text) :
    (started policy drsymInit conf).world = MntWorld.init policy := by
  obtain ⟨active, table, eq⟩ := started_eq policy drsymInit conf
  rw [eq]
  rfl

theorem started_kept (policy : Policy) (drsymInit : Bool) (conf : Option Text) :
    Kept [] (started policy drsymInit conf) := by
  obtain ⟨active, table, eq⟩ := started_eq policy drsymInit conf
  rw [eq]
  exact ⟨by simp [start, firsts], rfl, rfl, rfl, rfl⟩

theorem seen_concat (s : HookState) (events : List HookEvent) (e : HookEvent) :
    s.seen (events ++ [e]) = s.seen events ++ s.seen [e] := by
  unfold seen
  split_ifs
  · simp [targetsOf]
  · rfl

theorem kept_of_run {s₀ : HookState} {events : List HookEvent} (init : Kept [] s₀)
    (run : Run HookStep s₀ events s) :
    Kept (s.seen events) s ∧ s.table = s₀.table ∧ s.active = s₀.active := by
  induction run with
  | nil => exact ⟨by simpa [seen, targetsOf] using init, rfl, rfl⟩
  | @snoc events e t u run step ih =>
    obtain ⟨kept, table, active⟩ := ih
    obtain ⟨kept', table', active'⟩ := kept.step step
    have same : ∀ es, u.seen es = t.seen es := fun es => by rw [seen, seen, table', active']
    rw [same, seen_concat]
    exact ⟨kept', table'.trans table, active'.trans active⟩

end HookState

/-! ## Which summary runs -/

section Runs

variable {policy : Policy} {drsymInit : Bool} {conf : Option Text} {events : List HookEvent}
  {s : HookState}

theorem HookState.Kept.summaryAt {ts : List Target} (h : s.Kept ts) (pc : ADDRINT) :
    s.summaryAt pc = (ts.find? fun t => decide (t.funcPc = pc)).map (·.sum) := by
  rw [HookState.summaryAt, h.wraps, List.find?_map, ← find?_firsts]
  rw [Option.map_map]
  rfl

/-- Whatever modules come and go, no address is wrapped twice, and what runs when a function is
entered is the summary of the first symbol with that address that the hook has seen, in the
order of the loads and of the symbols in each. -/
theorem first_symbol_wins
    (run : Run HookStep (HookState.started policy drsymInit conf) events s) :
    (s.wraps.map Wrap.funcPc).Nodup ∧
    s.wraps.Sublist ((s.seen events).map Target.wrap) ∧
    (∀ pc, s.summaryAt pc =
      ((s.seen events).find? fun t => decide (t.funcPc = pc)).map (·.sum)) ∧
    s.interceptedRtns = BitVec.ofNat 64 s.wraps.length := by
  obtain ⟨kept, -, -⟩ :=
    HookState.kept_of_run (HookState.started_kept policy drsymInit conf) run
  have keys : s.wraps.map Wrap.funcPc =
      (firsts Target.funcPc (s.seen events)).map Target.funcPc := by
    rw [kept.wraps, List.map_map]
    rfl
  refine ⟨?_, ?_, kept.summaryAt, ?_⟩
  · rw [keys]
    exact nodup_firsts _
  · rw [kept.wraps]
    exact (firsts_sublist _).map Target.wrap
  · rw [kept.interceptedRtns, kept.wraps, List.length_map]

/-- Two functions with a summary; in the library they are two names of one. -/
def twoConf : Text := "FUNC f SOURCE buf=1\nFUNC g CLOBBER_ONLY".toList

def aliased : HookModule where
  start := 0x1000
  stop := 0x3000
  fullPath := some "libc.so".toList
  internal := false
  symbols :=
    [⟨.success, some "f".toList, 0x100, 0x200⟩, ⟨.lineNotAvailable, some "g".toList, 0x100, 0x180⟩]
  procAddress := fun _ => 0

/-- The process after the library is loaded. -/
def withAliased : HookState := (HookState.started .lean true (some twoConf)).load bareHost aliased

theorem aliased_run : Run HookStep (HookState.started .lean true (some twoConf))
    [.load bareHost aliased] withAliased :=
  .snoc .nil (.load (by decide) (by simp [HookState.started_world, MntWorld.init]))

theorem first_symbol_wins_alias : (withAliased.wraps.map Wrap.funcPc).Nodup ∧
    (withAliased.summaryAt 0x1100).map (·.shape) = some .source := by
  obtain ⟨nodup, -, which, -⟩ := first_symbol_wins aliased_run
  refine ⟨nodup, ?_⟩
  rw [which]
  decide +kernel

/-! ## The consumer's side of a run -/

theorem HookState.exists_enumSymCb_run (s : HookState) (info : HookModule) (sym : SymInfo) :
    ∃ es, Run MntStep s.world es (s.enumSymCb info sym).world := by
  obtain ⟨-, same⟩ | ⟨t, -, next⟩ := HookState.enumSymCb_cases s info sym
  · rw [same]
    exact ⟨[], .nil⟩
  · rw [next]
    split_ifs
    · exact ⟨[], .nil⟩
    · unfold HookState.wrapTarget
      cases t.body with
      | none => exact ⟨[], .nil⟩
      | some r => exact ⟨[.addRtnRange r.1 r.2.1 r.2.2], .cons .addRtnRange .nil⟩

theorem HookState.exists_enumerate_run (info : HookModule) (syms : List SymInfo) (s : HookState) :
    ∃ es, Run MntStep s.world es (syms.foldl (.enumSymCb info) s).world := by
  induction syms generalizing s with
  | nil => exact ⟨[], .nil⟩
  | cons sym syms ih =>
    obtain ⟨first, run⟩ := s.exists_enumSymCb_run info sym
    obtain ⟨rest, run'⟩ := ih (s.enumSymCb info sym)
    exact ⟨first ++ rest, run.append run'⟩

theorem HookStep.exists_mntRun {e : HookEvent} {s' : HookState} (step : HookStep s e s') :
    ∃ es, Run MntStep s.world es s'.world := by
  cases step with
  | @load host info nonempty apart =>
    have loaded : MntStep s.world (.load host info.toModuleData) _ := .load nonempty apart
    have hook : ∃ es, Run MntStep (s.world.load host info.toModuleData) es
        (s.load host info).world := by
      unfold HookState.load HookState.eventModuleLoad
      dsimp only
      split_ifs
      · exact ⟨[], .nil⟩
      · exact ⟨[], .nil⟩
      · exact HookState.exists_enumerate_run info info.symbols
          { s with world := s.world.load host info.toModuleData }
      · exact ⟨[], .nil⟩
    obtain ⟨es, run⟩ := hook
    exact ⟨_, .cons loaded run⟩
  | unload present => exact ⟨_, .cons (.unload present) .nil⟩
  | isMnt answer => exact ⟨_, .cons (.isMnt answer) .nil⟩

/-- Every run of the process is a run of the consumer in it. -/
theorem exists_mntRun {s₀ : HookState} (run : Run HookStep s₀ events s) :
    ∃ es, Run MntStep s₀.world es s.world := by
  induction run with
  | nil => exact ⟨[], .nil⟩
  | snoc _ step ih =>
    obtain ⟨first, run⟩ := ih
    obtain ⟨rest, run'⟩ := step.exists_mntRun
    exact ⟨first ++ rest, run.append run'⟩

theorem world_valid (run : Run HookStep (HookState.started policy drsymInit conf) events s) :
    s.world.Valid := by
  obtain ⟨active, table, eq⟩ := HookState.started_eq policy drsymInit conf
  rw [eq] at run
  obtain ⟨es, run⟩ := exists_mntRun run
  exact (MntWorld.valid_of_run run).1

/-! ## What is skipped -/

/-- The instruction is on the list of a loaded module. -/
def MntWorld.Listed (w : MntWorld) (pc : ADDRINT) : Prop :=
  ∃ m ∈ w.loaded, m.Contains pc ∧
    ∃ im ∈ w.mnt.images, Describes m im ∧ pc - m.start ∈ im.mntSorted

/-- An address is reported because of a list or because of a range. -/
theorem MntWorld.Valid.reported {w : MntWorld} (valid : w.Valid) {pc : ADDRINT} {mnt : MntState}
    (answer : w.mnt.isMnt pc = .ok (true, mnt)) :
    w.Listed pc ∨ ∃ r ∈ w.registered, r.2.1 ≤ pc ∧ pc < r.2.2 := by
  by_cases off : w.mnt.policy = .off
  · simp only [MntState.isMnt, off, if_true, Except.ok.injEq] at answer
    have found : (w.mnt.rtnRangeContains pc).1 = true := by
      rw [← MntState.rangeAnswer_fst, answer]
    exact .inr (MntWorld.exists_range valid found)
  · have reported := MntState.isMnt_answer valid.cache valid.separate off answer
    obtain ⟨im, mem, inside, holds⟩ | found :=
      (scanAnswer_iff valid.separate pc).mp reported.symm
    · obtain ⟨m, loaded, describes⟩ := MntWorld.exists_module valid mem
      have offset : pc - m.start ∈ im.mntSorted := by
        rw [← describes.low]
        exact ImageMnt.mem_of_hasOffset holds
      exact .inl ⟨m, loaded, (describes.contains_iff pc).mp inside, im, mem, describes, offset⟩
    · exact .inr (MntWorld.exists_range valid found)

theorem HookState.of_mem_seen {t : Target} (h : t ∈ s.seen events) :
    (∃ host, .load host t.owner ∈ events) ∧ t.sym ∈ t.owner.symbols ∧
      s.table.find (t.sym.name.getD []) = some t.sum := by
  unfold HookState.seen at h
  split_ifs at h
  · obtain ⟨e, he, ht⟩ := List.mem_flatMap.mp h
    cases e with
    | load host info =>
      dsimp only [HookModule.targets] at ht
      split_ifs at ht
      · cases ht
      · obtain ⟨sym, mem, found⟩ := List.mem_filterMap.mp ht
        obtain ⟨rfl, rfl, sum⟩ := Target.of_ofSym found
        exact ⟨⟨host, he⟩, mem, sum⟩
    | unload info => cases ht
    | isMnt pc => cases ht
  · cases h

/-- A range is the body of a symbol that was wrapped, so the symbol was the first at its address. -/
theorem HookState.of_mem_registered (run : Run HookStep (started policy drsymInit conf) events s)
    {r : ModuleData × RtnRange} (hr : r ∈ s.world.registered) :
    ∃ host info sym sum, .load host info ∈ events ∧ sym ∈ info.symbols ∧
      s.table.find (sym.name.getD []) = some sum ∧
      s.summaryAt (info.start + sym.startOffs) = some sum ∧
      r.2.1 = info.start + sym.startOffs ∧ r.2.2 = info.start + sym.endOffs := by
  obtain ⟨kept, -, -⟩ := kept_of_run (started_kept policy drsymInit conf) run
  rw [kept.registered] at hr
  obtain ⟨t, first, body⟩ := List.mem_filterMap.mp hr
  obtain ⟨inPlace, rfl⟩ := Target.of_body body
  obtain ⟨⟨host, loaded⟩, mem, found⟩ := of_mem_seen ((firsts_sublist _).subset first)
  have runs : s.summaryAt t.symtabPc = some t.sum := by
    rw [kept.summaryAt, ← inPlace, find?_of_mem_firsts first]
    rfl
  exact ⟨host, t.owner, t.sym, t.sum, loaded, mem, found, runs, inPlace, rfl⟩

/-- Every application instruction is instrumented in full, unless a list of its own module names
it or it lies in the body of a symbol of some module loaded so far whose entry runs the summary
found under the symbol's own name. -/
theorem instrumented_or_summarised {κ : Type}
    (run : Run HookStep (HookState.started policy drsymInit conf) events s)
    (cpu : Cpu) (ranges : PcRanges κ) (instr : Instr) :
    ∃ code mnt, eventBbInsn cpu ranges true instr s.world.mnt = .ok (code, mnt) ∧
      ((∃ sinks, code = (insInspectDr cpu instr).map .propagate ++ sinks) ∨
        s.world.Listed instr.pc ∨
        ∃ host info sym sum, .load host info ∈ events ∧ sym ∈ info.symbols ∧
          s.table.find (sym.name.getD []) = some sum ∧
          s.summaryAt (info.start + sym.startOffs) = some sum ∧
          info.start + sym.startOffs ≤ instr.pc ∧ instr.pc < info.start + sym.endOffs) := by
  have valid := world_valid run
  obtain ⟨b, mnt, answer, -, -⟩ := MntState.isMnt_total valid.cache instr.pc
  by_cases address : instr.pc = 0
  · have kept : mntSkips instr.pc s.world.mnt = .ok (false, s.world.mnt) := by
      rw [mntSkips, if_neg (not_not.mpr address)]
    exact ⟨_, _, by rw [eventBbInsn, kept]; rfl, .inl ⟨_, rfl⟩⟩
  have skips : mntSkips instr.pc s.world.mnt = .ok (b, mnt) := by
    rw [mntSkips, if_pos address, answer]
  cases b with
  | false => exact ⟨_, _, by rw [eventBbInsn, skips]; rfl, .inl ⟨_, rfl⟩⟩
  | true =>
    refine ⟨[], mnt, fired_of_skipped skips, .inr ?_⟩
    obtain listed | ⟨r, hr, low, high⟩ := valid.reported answer
    · exact .inl listed
    obtain ⟨host, info, sym, sum, loaded, mem, found, runs, start, stop⟩ :=
      HookState.of_mem_registered run hr
    exact .inr ⟨host, info, sym, sum, loaded, mem, found, runs, start ▸ low, stop ▸ high⟩

/-- `mov rax, rbx` in the body of the wrapped function. -/
def movInBody : Instr where
  opcode := .movSt
  dsts := [.reg (.gpr .rax .b8)]
  srcs := [.reg (.gpr .rbx .b8)]
  predicate := .none
  pc := 0x1150

/-- It is not instrumented and on no list: it has the summary of the function. -/
theorem instrumented_or_summarised_body : ∃ mnt,
    eventBbInsn idleCpu ([] : PcRanges Unit) true movInBody withAliased.world.mnt = .ok ([], mnt) ∧
    ¬ withAliased.world.Listed 0x1150 ∧
    ∃ host info sym sum, .load host info ∈ [HookEvent.load bareHost aliased] ∧
      sym ∈ info.symbols ∧ withAliased.table.find (sym.name.getD []) = some sum ∧
      withAliased.summaryAt (info.start + sym.startOffs) = some sum ∧
      info.start + sym.startOffs ≤ 0x1150 ∧ 0x1150 < info.start + sym.endOffs := by
  have unlisted : ¬ withAliased.world.Listed 0x1150 := by
    rintro ⟨m, -, -, im, mem, -, offset⟩
    have bare : ∀ im ∈ withAliased.world.mnt.images, im.mntSorted = [] := by decide +kernel
    rw [bare im mem] at offset
    cases offset
  have dropped : (eventBbInsn idleCpu ([] : PcRanges Unit) true movInBody
      withAliased.world.mnt).toOption.map (fun r => r.1.length) = some 0 := by decide +kernel
  obtain ⟨code, mnt, inserted, cases⟩ := instrumented_or_summarised aliased_run idleCpu
    ([] : PcRanges Unit) movInBody
  rw [inserted] at dropped
  obtain rfl : code = [] := List.eq_nil_of_length_eq_zero (Option.some.inj dropped)
  refine ⟨mnt, inserted, unlisted, ?_⟩
  obtain ⟨sinks, none⟩ | listed | body := cases
  · have some : (insInspectDr idleCpu movInBody).length = 1 := by decide
    have length := congrArg List.length none
    rw [List.length_append, List.length_map, some, List.length_nil] at length
    omega
  · exact absurd listed unlisted
  · exact body

end Runs

end LibdftDr
