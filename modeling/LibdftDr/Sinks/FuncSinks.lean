import LibdftDr.Compat
import Mathlib.Data.Finset.Insert
import Mathlib.Data.List.Basic

/-!
# Function-entry sinks

Clients register callbacks on functions, by name or by address. `libdft_core_init` looks at
the registry once; what is registered by name is wrapped when a module that has the symbol
is loaded. A wrapped function fires every entry that holds its address.

The callback type `κ` is a parameter: only whether and in which order callbacks run matters.
-/
namespace LibdftDr

/-- `pending_func_sink`. -/
structure PendingFuncSink (κ : Type) where
  /-- Nonempty: to be resolved by `drsym`. -/
  funcName : Text
  /-- Empty: any module. -/
  moduleBasename : Text
  /-- Nonzero: known or resolved. -/
  pc : ADDRINT
  cb : κ

/-- What the load handler learns about a module. Symbols lie inside the address space. -/
structure SinkModule where
  start : ADDRINT
  fullPath : Option Text
  /-- `drsym_lookup_symbol`. -/
  symbol : Text → Option UINT64
  inside : ∀ name offs, symbol name = some offs → start.toNat + offs.toNat < 2 ^ 64

/-- The registry and what `drmgr` and `drwrap` have been asked for. -/
structure FuncSinks (κ : Type) where
  pending : List (PendingFuncSink κ)
  /-- `func_sink_on_module_load` is registered. -/
  listening : Bool
  /-- The functions wrapped with `func_sink_pre`; wrapping one twice has no effect. -/
  wrapped : Finset ADDRINT

inductive FuncSinkCall (κ : Type) where
  | registerFuncSink (funcName moduleBasename : Text) (cb : κ)
  | registerFuncSinkPc (entryPc : ADDRINT) (cb : κ)

variable {κ : Type}

/-- The entry a call leaves in the registry; an empty name is refused. -/
def FuncSinkCall.entry : FuncSinkCall κ → Option (PendingFuncSink κ)
  | .registerFuncSink funcName moduleBasename cb =>
    if funcName = [] then none else some ⟨funcName, moduleBasename, 0, cb⟩
  | .registerFuncSinkPc entryPc cb => some ⟨[], [], entryPc, cb⟩

namespace PendingFuncSink

/-- The address `drsym` gives for the entry in a module that passes its filter. -/
def resolve (e : PendingFuncSink κ) (info : SinkModule) : Option ADDRINT :=
  if e.moduleBasename ≠ [] ∧ e.moduleBasename ≠ basenameOf (info.fullPath.getD []) then none
  else
    match info.symbol e.funcName with
    | none => none
    | some modoffs => if modoffs ≠ 0 then some (info.start + modoffs) else none

/-- One turn of the load handler's loop: the entry after it, and what it wraps. -/
def settle (e : PendingFuncSink κ) (info : SinkModule) : PendingFuncSink κ × Option ADDRINT :=
  if e.funcName ≠ [] ∧ e.pc = 0 then
    match e.resolve info with
    | none => (e, none)
    | some wrapPc => ({ e with pc := wrapPc }, some wrapPc)
  else (e, none)

/-- The address of an entry that needs no symbol. -/
def direct (e : PendingFuncSink κ) : Option ADDRINT :=
  if e.pc ≠ 0 ∧ e.funcName = [] then some e.pc else none

end PendingFuncSink

/-- `drwrap_wrap` for the address that each entry gives, if it gives one. -/
def wrapEach (target : PendingFuncSink κ → Option ADDRINT) (entries : List (PendingFuncSink κ))
    (wrapped : Finset ADDRINT) : Finset ADDRINT :=
  entries.foldl (fun w e => (target e).elim w (insert · w)) wrapped

namespace FuncSinks

def empty : FuncSinks κ := ⟨[], false, ∅⟩

def register (s : FuncSinks κ) (c : FuncSinkCall κ) : FuncSinks κ :=
  match c.entry with
  | none => s
  | some e => { s with pending := s.pending ++ [e] }

/-- The part of `libdft_core_init` that looks at the registry. -/
def coreInit (s : FuncSinks κ) : FuncSinks κ :=
  if s.pending.isEmpty then s
  else
    { s with
      listening := true
      wrapped := wrapEach PendingFuncSink.direct s.pending s.wrapped }

def onModuleLoad (s : FuncSinks κ) (info : SinkModule) : FuncSinks κ :=
  { s with
    pending := s.pending.map fun e => (e.settle info).1
    wrapped := wrapEach (fun e => (e.settle info).2) s.pending s.wrapped }

/-- A module is loaded; the handler runs if it is registered. -/
def moduleLoad (s : FuncSinks κ) (info : SinkModule) : FuncSinks κ :=
  if s.listening then s.onModuleLoad info else s

/-- `func_sink_pre`: every entry that holds the address. -/
def funcSinkPre (s : FuncSinks κ) (pc : ADDRINT) : List κ :=
  (s.pending.filter fun e => e.pc != 0 && e.pc == pc).map PendingFuncSink.cb

/-- The callbacks that a call of the function at `pc` runs. -/
def call (s : FuncSinks κ) (pc : ADDRINT) : List κ :=
  if pc ∈ s.wrapped then s.funcSinkPre pc else []

/-- A client that registers some sinks, calls `init`, and registers others. -/
def setup (pre post : List (FuncSinkCall κ)) : FuncSinks κ :=
  post.foldl register (pre.foldl register empty).coreInit

/-- The client's start-up followed by module loads. -/
def run (pre post : List (FuncSinkCall κ)) (loads : List SinkModule) : FuncSinks κ :=
  loads.foldl moduleLoad (setup pre post)

end FuncSinks

/-! ## Entries over a sequence of loads -/

namespace PendingFuncSink

variable {e : PendingFuncSink κ} {info : SinkModule} {loads : List SinkModule} {pc : ADDRINT}

theorem resolve_ne_zero (h : e.resolve info = some pc) : pc ≠ 0 := by
  unfold resolve at h
  split_ifs at h
  split at h
  · cases h
  · rename_i modoffs hs
    split_ifs at h with hne
    obtain rfl := Option.some.inj h
    have inside := info.inside _ _ hs
    intro hz
    have := congrArg BitVec.toNat hz
    rw [BitVec.toNat_add, Nat.mod_eq_of_lt inside] at this
    exact hne (BitVec.eq_of_toNat_eq (by simp at this ⊢; omega))

/-- The entry after a sequence of loads. -/
def settled (e : PendingFuncSink κ) (loads : List SinkModule) : PendingFuncSink κ :=
  loads.foldl (fun e info => (e.settle info).1) e

/-- An entry that waits for its symbol. -/
def Waiting (e : PendingFuncSink κ) : Prop := e.funcName ≠ [] ∧ e.pc = 0

theorem settle_of_not_waiting (h : ¬ e.Waiting) (info : SinkModule) :
    e.settle info = (e, none) := by
  unfold settle
  exact if_neg h

theorem settle_of_resolve (h : e.Waiting) (found : e.resolve info = some pc) :
    e.settle info = ({ e with pc := pc }, some pc) := by
  simp [settle, h.1, h.2, found]

theorem settle_of_not_resolve (missing : e.resolve info = none) : e.settle info = (e, none) := by
  unfold settle
  split_ifs <;> simp [missing]

theorem settled_of_not_waiting (h : ¬ e.Waiting) (loads : List SinkModule) :
    e.settled loads = e := by
  induction loads with
  | nil => rfl
  | cons info loads ih => simpa [settled, settle_of_not_waiting h] using ih

/-- A waiting entry takes the address of the first module that resolves it, and keeps it. -/
theorem settled_of_waiting (h : e.Waiting) (loads : List SinkModule) :
    e.settled loads = { e with pc := (loads.findSome? e.resolve).getD 0 } := by
  induction loads with
  | nil => simp [settled, ← h.2]
  | cons info loads ih =>
    cases found : e.resolve info with
    | none => simpa [settled, settle_of_not_resolve found, found] using ih
    | some pc =>
      have done : ¬ Waiting { e with pc := pc } := fun w => resolve_ne_zero found w.2
      have rest := settled_of_not_waiting done loads
      simpa [settled, settle_of_resolve h found, found] using rest

/-- An entry is wrapped now, or it still waits and is wrapped later. -/
theorem wraps_cons : ((e.settle info).2 = some pc ∨
      (e.settle info).1.Waiting ∧ loads.findSome? (e.settle info).1.resolve = some pc) ↔
    e.Waiting ∧ (info :: loads).findSome? e.resolve = some pc := by
  by_cases h : e.Waiting
  · cases found : e.resolve info with
    | none => simp [settle_of_not_resolve found, h, found]
    | some x =>
      have done : ¬ Waiting { e with pc := x } := fun w => resolve_ne_zero found w.2
      simp [settle_of_resolve h found, h, found, done]
  · simp [settle_of_not_waiting h, h]

end PendingFuncSink

/-! ## The registry over a sequence of loads -/

theorem mem_wrapEach {target : PendingFuncSink κ → Option ADDRINT}
    {entries : List (PendingFuncSink κ)} {wrapped : Finset ADDRINT} {pc : ADDRINT} :
    pc ∈ wrapEach target entries wrapped ↔
      pc ∈ wrapped ∨ ∃ e ∈ entries, target e = some pc := by
  unfold wrapEach
  induction entries generalizing wrapped with
  | nil => simp
  | cons e es ih =>
    simp only [List.foldl_cons, ih, List.mem_cons, exists_eq_or_imp]
    cases target e with
    | none => simp
    | some x => simp [eq_comm (a := pc), or_assoc, or_left_comm]

namespace FuncSinks

variable {s : FuncSinks κ} {pre post : List (FuncSinkCall κ)} {loads : List SinkModule}

/-- The entries that a sequence of calls leaves in an empty registry. -/
def registered (calls : List (FuncSinkCall κ)) : List (PendingFuncSink κ) :=
  calls.filterMap FuncSinkCall.entry

theorem foldl_register (s : FuncSinks κ) (calls : List (FuncSinkCall κ)) :
    calls.foldl register s = { s with pending := s.pending ++ registered calls } := by
  induction calls generalizing s with
  | nil => simp [registered]
  | cons c calls ih =>
    rw [List.foldl_cons, ih]
    unfold register registered
    cases hc : c.entry <;> simp [hc]

/-- The registry does not depend on when `init` runs; listening and wrapping do. -/
theorem setup_eq (pre post : List (FuncSinkCall κ)) :
    setup pre post =
      { pending := registered (pre ++ post)
        listening := !(registered pre).isEmpty
        wrapped := wrapEach PendingFuncSink.direct (registered pre) ∅ } := by
  have start : pre.foldl register empty = ⟨registered pre, false, ∅⟩ := by
    rw [foldl_register]; rfl
  unfold setup
  rw [foldl_register, start]
  unfold coreInit
  split_ifs with h
  · rw [List.isEmpty_iff] at h
    simp_all [registered, wrapEach]
  · simp_all [registered]

/-- Waiting entries are wrapped where they resolve first. -/
theorem foldl_moduleLoad (on : s.listening = true) (loads : List SinkModule) :
    (loads.foldl moduleLoad s).pending = s.pending.map (·.settled loads) ∧
    ∀ pc, pc ∈ (loads.foldl moduleLoad s).wrapped ↔ pc ∈ s.wrapped ∨
      ∃ e ∈ s.pending, e.Waiting ∧ loads.findSome? e.resolve = some pc := by
  induction loads generalizing s with
  | nil => simp [PendingFuncSink.settled]
  | cons info loads ih =>
    have first : s.moduleLoad info = s.onModuleLoad info := by simp [moduleLoad, on]
    obtain ⟨pending, wrapped⟩ := ih (s := s.onModuleLoad info) on
    rw [List.foldl_cons, first]
    refine ⟨?_, fun pc => ?_⟩
    · rw [pending]
      simp [onModuleLoad, PendingFuncSink.settled]
    · rw [wrapped]
      simp only [onModuleLoad, mem_wrapEach, List.mem_map, exists_exists_and_eq_and, or_assoc]
      rw [← exists_or]
      refine or_congr_right (exists_congr fun e => ?_)
      rw [← and_or_left, PendingFuncSink.wraps_cons]

theorem foldl_moduleLoad_of_not_listening (off : s.listening = false) (loads : List SinkModule) :
    loads.foldl moduleLoad s = s := by
  induction loads with
  | nil => rfl
  | cons info loads ih => simpa [moduleLoad, off] using ih

/-! ## What a registration is for -/

/-- The entry at position `i` of the registry fires on every call of the function at `pc`. -/
def Fires (s : FuncSinks κ) (i : ℕ) (pc : ADDRINT) : Prop :=
  pc ∈ s.wrapped ∧ ∃ e, s.pending[i]? = some e ∧ e.pc ≠ 0 ∧ e.pc = pc

/-- The behaviour that registrations ask for, whenever `init` runs: calls run the callbacks
they run when all registrations come first, every address is wrapped, and every name fires in
every loaded module that resolves it. -/
structure Served (pre post : List (FuncSinkCall κ)) (loads : List SinkModule) : Prop where
  same : ∀ pc, (run pre post loads).call pc = (run (pre ++ post) [] loads).call pc
  addresses : ∀ pc cb, .registerFuncSinkPc pc cb ∈ pre ++ post → pc ∈ (run pre post loads).wrapped
  names : ∀ i e, (registered (pre ++ post))[i]? = some e → e.funcName ≠ [] →
    ∀ info ∈ loads, ∀ pc, e.resolve info = some pc →
      (run pre post loads).Fires i pc ∧ e.cb ∈ (run pre post loads).call pc

/-- When the one look at the registry is enough. -/
structure InTime (pre post : List (FuncSinkCall κ)) (loads : List SinkModule) : Prop where
  /-- Addresses are not null. -/
  nonnull : ∀ pc cb, .registerFuncSinkPc pc cb ∈ pre ++ post → pc ≠ 0
  /-- An address registered late was registered early as well. -/
  addressed : ∀ pc cb, .registerFuncSinkPc pc cb ∈ post → ∃ cb', .registerFuncSinkPc pc cb' ∈ pre
  /-- Something was registered early, or no late name resolves in a loaded module. -/
  listened : registered pre = [] → ∀ e ∈ registered post, e.funcName ≠ [] → ∀ info ∈ loads,
    e.resolve info = none
  /-- A name resolves at one address only. -/
  single : ∀ e ∈ registered (pre ++ post), e.funcName ≠ [] → ∀ info ∈ loads, ∀ info' ∈ loads,
    ∀ pc pc', e.resolve info = some pc → e.resolve info' = some pc' → pc = pc'

theorem mem_registered {e : PendingFuncSink κ} {calls : List (FuncSinkCall κ)} :
    e ∈ registered calls ↔ ∃ c ∈ calls, c.entry = some e := List.mem_filterMap

theorem waiting_of_mem {e : PendingFuncSink κ} {calls : List (FuncSinkCall κ)}
    (mem : e ∈ registered calls) (name : e.funcName ≠ []) : e.Waiting := by
  obtain ⟨c, -, hc⟩ := mem_registered.mp mem
  refine ⟨name, ?_⟩
  cases c with
  | registerFuncSink funcName base cb =>
    simp only [FuncSinkCall.entry] at hc
    split_ifs at hc
    exact congrArg PendingFuncSink.pc (Option.some.inj hc).symm
  | registerFuncSinkPc pc cb =>
    exact absurd (congrArg PendingFuncSink.funcName (Option.some.inj hc)).symm name

theorem mem_direct {calls : List (FuncSinkCall κ)} {pc : ADDRINT} :
    pc ∈ wrapEach PendingFuncSink.direct (registered calls) ∅ ↔
      pc ≠ 0 ∧ ∃ cb, .registerFuncSinkPc pc cb ∈ calls := by
  rw [mem_wrapEach]
  constructor
  · rintro (none | ⟨e, mem, he⟩)
    · simp at none
    · obtain ⟨c, hc, hce⟩ := mem_registered.mp mem
      unfold PendingFuncSink.direct at he
      split_ifs at he with hdirect
      obtain rfl := Option.some.inj he
      refine ⟨hdirect.1, ?_⟩
      cases c with
      | registerFuncSink funcName base cb =>
        simp only [FuncSinkCall.entry] at hce
        split_ifs at hce with hname
        have same := congrArg PendingFuncSink.funcName (Option.some.inj hce)
        exact absurd (same.trans hdirect.2) hname
      | registerFuncSinkPc pc cb =>
        obtain rfl := Option.some.inj hce
        exact ⟨cb, hc⟩
  · rintro ⟨hne, cb, hc⟩
    exact .inr ⟨_, mem_registered.mpr ⟨_, hc, rfl⟩, if_pos ⟨hne, rfl⟩⟩

theorem registered_ne_nil {pc : ADDRINT} {cb : κ} (h : .registerFuncSinkPc pc cb ∈ pre) :
    registered pre ≠ [] :=
  List.ne_nil_of_mem (mem_registered.mpr ⟨_, h, rfl⟩)

/-- With something registered before `init`, later loads are listened to. -/
theorem run_of_listening (post : List (FuncSinkCall κ)) (loads : List SinkModule)
    (h : registered pre ≠ []) :
    (run pre post loads).pending = (registered (pre ++ post)).map (·.settled loads) ∧
    ∀ pc, pc ∈ (run pre post loads).wrapped ↔
      (pc ≠ 0 ∧ ∃ cb, .registerFuncSinkPc pc cb ∈ pre) ∨
      ∃ e ∈ registered (pre ++ post), e.Waiting ∧ loads.findSome? e.resolve = some pc := by
  have on : (setup pre post).listening = true := by simp [setup_eq, h]
  obtain ⟨pending, wrapped⟩ := foldl_moduleLoad on loads
  simp only [setup_eq] at pending wrapped
  simp only [run, setup_eq]
  exact ⟨pending, fun pc => (wrapped pc).trans (or_congr_left mem_direct)⟩

/-- With nothing registered before `init`, nothing is ever wrapped. -/
theorem run_of_silent (h : registered pre = []) :
    run pre post loads = ⟨registered (pre ++ post), false, ∅⟩ := by
  have off : (setup pre post).listening = false := by simp [setup_eq, h]
  rw [run, foldl_moduleLoad_of_not_listening off, setup_eq, h]
  rfl

theorem zero_notMem_wrapped : (0 : ADDRINT) ∉ (run pre post loads).wrapped := by
  by_cases h : registered pre = []
  · simp [run_of_silent h]
  · rw [(run_of_listening post loads h).2]
    rintro (⟨hne, -⟩ | ⟨e, -, -, found⟩)
    · exact hne rfl
    · obtain ⟨info, -, hres⟩ := List.exists_of_findSome?_eq_some found
      exact PendingFuncSink.resolve_ne_zero hres rfl

theorem call_of_notMem {pc : ADDRINT} (h : pc ∉ s.wrapped) : s.call pc = [] := by
  simp [call, h]

/-- An entry that fires runs its callback. -/
theorem Fires.mem_call {i : ℕ} {pc : ADDRINT} (h : s.Fires i pc) {e : PendingFuncSink κ}
    (he : s.pending[i]? = some e) : e.cb ∈ s.call pc := by
  obtain ⟨wrapped, e', he', hne, rfl⟩ := h
  obtain rfl : e' = e := Option.some.inj (he'.symm.trans he)
  simp only [call, wrapped, if_true, funcSinkPre, List.mem_map, List.mem_filter]
  exact ⟨e', ⟨List.mem_of_getElem? he, by simpa using hne⟩, rfl⟩

theorem served_of_inTime_listening (h : InTime pre post loads) (on : registered pre ≠ []) :
    Served pre post loads := by
  obtain ⟨pending, wrapped⟩ := run_of_listening post loads on
  have on' : registered (pre ++ post) ≠ [] := by
    simp only [registered, List.filterMap_append] at on ⊢
    simp [on]
  obtain ⟨pending', wrapped'⟩ := run_of_listening [] loads on'
  rw [List.append_nil] at pending' wrapped'
  refine ⟨fun pc => ?_, fun pc cb mem => ?_, fun i e he name info hinfo pc found => ?_⟩
  · have same : pc ∈ (run pre post loads).wrapped ↔ pc ∈ (run (pre ++ post) [] loads).wrapped := by
      rw [wrapped, wrapped']
      refine or_congr_left (and_congr_right fun _ => ⟨fun ⟨cb, mem⟩ => ⟨cb, by simp [mem]⟩, ?_⟩)
      rintro ⟨cb, mem⟩
      obtain mem | mem := List.mem_append.mp mem
      · exact ⟨cb, mem⟩
      · exact h.addressed pc cb mem
    simp only [call, same, funcSinkPre, pending, pending']
  · refine (wrapped pc).mpr (.inl ⟨h.nonnull pc cb mem, ?_⟩)
    obtain mem | mem := List.mem_append.mp mem
    · exact ⟨cb, mem⟩
    · exact h.addressed pc cb mem
  · have mem := List.mem_of_getElem? he
    have waiting := waiting_of_mem mem name
    obtain ⟨first, hfirst⟩ : ∃ first, loads.findSome? e.resolve = some first :=
      Option.isSome_iff_exists.mp (List.findSome?_isSome_iff.mpr ⟨info, hinfo, by simp [found]⟩)
    obtain ⟨info', hinfo', found'⟩ := List.exists_of_findSome?_eq_some hfirst
    obtain rfl := h.single e mem name info' hinfo' info hinfo first pc found' found
    have entry : (run pre post loads).pending[i]? = some (e.settled loads) := by
      rw [pending, List.getElem?_map, he]; rfl
    have settled := PendingFuncSink.settled_of_waiting waiting loads
    rw [hfirst, Option.getD_some] at settled
    have fires : (run pre post loads).Fires i first :=
      ⟨(wrapped first).mpr (.inr ⟨e, mem, waiting, hfirst⟩), _, entry, by
        rw [settled]; exact PendingFuncSink.resolve_ne_zero found, by rw [settled]⟩
    exact ⟨fires, by simpa [settled] using fires.mem_call entry⟩

theorem served_of_inTime_silent (h : InTime pre post loads) (off : registered pre = []) :
    Served pre post loads := by
  have noAddress : ∀ pc cb, .registerFuncSinkPc pc cb ∉ pre ++ post := by
    intro pc cb mem
    obtain mem | mem := List.mem_append.mp mem
    · exact registered_ne_nil mem off
    · obtain ⟨cb', mem'⟩ := h.addressed pc cb mem
      exact registered_ne_nil mem' off
  have all : registered (pre ++ post) = registered post := by
    simp only [registered, List.filterMap_append] at off ⊢
    simp [off]
  have unresolved : ∀ e ∈ registered (pre ++ post), e.Waiting →
      loads.findSome? e.resolve = none := by
    intro e mem waiting
    rw [all] at mem
    exact List.findSome?_eq_none_iff.mpr (h.listened off e mem waiting.1)
  refine ⟨fun pc => ?_, fun pc cb mem => absurd mem (noAddress pc cb), ?_⟩
  · rw [call_of_notMem (by simp [run_of_silent off]), call_of_notMem]
    by_cases on' : registered (pre ++ post) = []
    · simp [run_of_silent on']
    · rw [(run_of_listening [] loads on').2, List.append_nil]
      rintro (⟨-, cb, mem⟩ | ⟨e, mem, waiting, found⟩)
      · exact noAddress pc cb mem
      · rw [unresolved e mem waiting] at found
        cases found
  · intro i e he name info hinfo pc found
    have mem := List.mem_of_getElem? he
    rw [all] at mem
    rw [h.listened off e mem name info hinfo] at found
    cases found

theorem inTime_take (h : InTime pre post loads) (n : ℕ) : InTime pre post (loads.take n) where
  nonnull := h.nonnull
  addressed := h.addressed
  listened off e mem name info hinfo := h.listened off e mem name info (List.mem_of_mem_take hinfo)
  single e mem name info hinfo info' hinfo' :=
    h.single e mem name info (List.mem_of_mem_take hinfo) info' (List.mem_of_mem_take hinfo')

theorem inTime_of_served (atStart : Served pre post []) (atEnd : Served pre post loads) :
    InTime pre post loads where
  nonnull pc cb mem := by
    rintro rfl
    exact zero_notMem_wrapped (atStart.addresses 0 cb mem)
  addressed pc cb mem := by
    have wrapped := atStart.addresses pc cb (List.mem_append_right pre mem)
    by_cases off : registered pre = []
    · simp [run_of_silent off] at wrapped
    · obtain ⟨-, early⟩ | ⟨e, -, -, found⟩ := ((run_of_listening post [] off).2 pc).mp wrapped
      · exact early
      · cases found
  listened off e mem name info hinfo := by
    cases found : e.resolve info with
    | none => rfl
    | some pc =>
      have mem' : e ∈ registered (pre ++ post) := by
        simp only [registered, List.filterMap_append] at mem ⊢
        exact List.mem_append_right _ mem
      obtain ⟨i, hi⟩ := List.mem_iff_getElem?.mp mem'
      have fires := (atEnd.names i e hi name info hinfo pc found).1
      simp [Fires, run_of_silent off] at fires
  single e mem name info hinfo info' hinfo' pc pc' found found' := by
    obtain ⟨i, hi⟩ := List.mem_iff_getElem?.mp mem
    obtain ⟨-, x, hx, -, rfl⟩ := (atEnd.names i e hi name info hinfo pc found).1
    obtain ⟨-, y, hy, -, rfl⟩ := (atEnd.names i e hi name info' hinfo' pc' found').1
    rw [Option.some.inj (hx.symm.trans hy)]

end FuncSinks

open FuncSinks in
/-- Registrations are served, at every moment of a sequence of loads, exactly when they are
made in time: addresses before `init`, names before it or after another registration. -/
theorem func_sinks_served_iff (pre post : List (FuncSinkCall κ)) (loads : List SinkModule) :
    (∀ n, Served pre post (loads.take n)) ↔ InTime pre post loads := by
  constructor
  · intro h
    have atEnd := h loads.length
    rw [List.take_length] at atEnd
    exact inTime_of_served (h 0) atEnd
  · intro h n
    have h' := inTime_take h n
    by_cases off : registered pre = []
    · exact served_of_inTime_silent h' off
    · exact served_of_inTime_listening h' off

/-- A C library at 0x7f0000000000 with `write` at offset 0x100. -/
def libcModule : SinkModule where
  start := 0x7f0000000000
  fullPath := some ['/', 'l', 'i', 'b', '/', 'c']
  symbol name := if name = ['w', 'r', 'i', 't', 'e'] then some 0x100 else none
  inside name offs h := by
    split_ifs at h
    obtain rfl := Option.some.inj h
    decide

/-- `write` in the C library, as the egress client registers it. -/
def onWrite : FuncSinkCall Unit := .registerFuncSink ['w', 'r', 'i', 't', 'e'] ['c'] ()

open FuncSinks in
/-- Registered after `init`, as the reference client does, the sink never fires. -/
theorem func_sinks_unserved :
    ¬ ∀ (pre post : List (FuncSinkCall Unit)) (loads : List SinkModule), Served pre post loads := by
  intro claim
  have served := (claim [] [onWrite] [libcModule]).names 0
    ⟨['w', 'r', 'i', 't', 'e'], ['c'], 0, ()⟩ rfl (by decide) libcModule (by simp)
    0x7f0000000100 (by decide)
  have silent : registered ([] : List (FuncSinkCall Unit)) = [] := rfl
  simp [Fires, run_of_silent silent] at served

end LibdftDr
