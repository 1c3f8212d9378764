import LibdftDr.Core.UpperHalf
import LibdftDr.Mnt.Modules
import LibdftDr.Mnt.Ranges
import LibdftDr.Sinks.Records

/-!
# Sinks on address ranges

Clients register callbacks on ranges of addresses. `event_bb_insn` looks at the ranges when it
instruments an instruction, after the MNT test, and inserts one clean call; the call fires
every range that contains the address. `pc_range_sinks_fire_iff` says which executions fire
what the client has asked for.

The callback type `κ` is a parameter, as for function entries.
-/
namespace LibdftDr
open Library

/-- `pc_range_entry`, and the arguments of a registration. -/
structure PcRangeEntry (κ : Type) where
  lo : ADDRINT
  hi : ADDRINT
  cb : κ

variable {κ : Type}

/-- `pc >= e.lo && pc < e.hi`. -/
def PcRangeEntry.holds (e : PcRangeEntry κ) (pc : ADDRINT) : Bool :=
  decide (e.lo ≤ pc) && decide (pc < e.hi)

/-- `g_pc_ranges`. -/
abbrev PcRanges (κ : Type) := List (PcRangeEntry κ)

/-- An empty range is reported and ignored. -/
def registerPcRangeSink (ranges : PcRanges κ) (e : PcRangeEntry κ) : PcRanges κ :=
  if e.hi ≤ e.lo then ranges else ranges ++ [e]

def hasPcRangeSinkAt (ranges : PcRanges κ) (pc : ADDRINT) : Bool := ranges.any (·.holds pc)

/-- A callback with the context it is given; there are no operands in it. -/
def PcRangeEntry.firing (pc : ADDRINT) (e : PcRangeEntry κ) : κ × SinkContext :=
  (e.cb, ⟨pc, ⟨[], []⟩⟩)

/-- The callbacks that the clean call runs, in order. -/
def dispatchPcRangeSink (ranges : PcRanges κ) (pc : ADDRINT) : List (κ × SinkContext) :=
  (ranges.filter (·.holds pc)).map (·.firing pc)

/-! ## Instrumentation -/

inductive InsertedCall where
  | propagate (c : CleanCall)
  | dispatchPcRangeSink (pc : ADDRINT)

/-- `pc != NULL && mnt::is_mnt(pc)`. -/
def mntSkips (pc : ADDRINT) (mnt : MntState) : Except Fault (Bool × MntState) :=
  if pc ≠ 0 then mnt.isMnt pc else .ok (false, mnt)

/-- The clean calls inserted before an instruction, with the arguments of one execution. -/
def eventBbInsn (cpu : Cpu) (ranges : PcRanges κ) (isApp : Bool) (instr : Instr) (mnt : MntState) :
    Except Fault (List InsertedCall × MntState) :=
  if !isApp then .ok ([], mnt)
  else
    match mntSkips instr.pc mnt with
    | .error e => .error e
    | .ok (true, mnt) => .ok ([], mnt)
    | .ok (false, mnt) =>
      -- the range call comes last, so that propagation reaches `drreg` first
      .ok ((insInspectDr cpu instr).map .propagate ++
        (if instr.pc ≠ 0 ∧ hasPcRangeSinkAt ranges instr.pc then
          [.dispatchPcRangeSink instr.pc]
        else []), mnt)

/-- The callbacks that an execution of the inserted calls runs. -/
def firedCallbacks (ranges : PcRanges κ) (code : List InsertedCall) : List (κ × SinkContext) :=
  code.flatMap fun
    | .propagate _ => []
    | .dispatchPcRangeSink pc => dispatchPcRangeSink ranges pc

/-! ## What is registered -/

def registerAll (calls : List (PcRangeEntry κ)) : PcRanges κ := calls.foldl registerPcRangeSink []

/-- The registrations of a non-empty range that contains the address. -/
def askedAt (calls : List (PcRangeEntry κ)) (pc : ADDRINT) : List (PcRangeEntry κ) :=
  calls.filter fun c => decide (c.lo < c.hi ∧ c.lo ≤ pc ∧ pc < c.hi)

section Registry

variable {ranges : PcRanges κ} {calls : List (PcRangeEntry κ)} {pc : ADDRINT}

theorem foldl_registerPcRangeSink (ranges : PcRanges κ) (calls : List (PcRangeEntry κ)) :
    calls.foldl registerPcRangeSink ranges =
      ranges ++ calls.filter fun c => decide (c.lo < c.hi) := by
  induction calls generalizing ranges with
  | nil => simp
  | cons c calls ih =>
    rw [List.foldl_cons, ih, registerPcRangeSink]
    by_cases empty : c.hi ≤ c.lo
    · have keeps : ¬ c.lo < c.hi := BitVec.not_lt.mpr empty
      simp [empty, keeps]
    · have keeps : c.lo < c.hi := BitVec.not_le.mp empty
      simp [empty, keeps]

/-- The clean call fires every range asked for that contains the address. -/
theorem dispatchPcRangeSink_registerAll :
    dispatchPcRangeSink (registerAll calls) pc = (askedAt calls pc).map (·.firing pc) := by
  rw [dispatchPcRangeSink, registerAll, foldl_registerPcRangeSink, List.nil_append,
    List.filter_filter]
  congr 2
  funext c
  simp [PcRangeEntry.holds, and_comm]

/-- The test at instrumentation time finds a range exactly when the call would fire one. -/
theorem hasPcRangeSinkAt_iff :
    hasPcRangeSinkAt ranges pc = true ↔ dispatchPcRangeSink ranges pc ≠ [] := by
  rw [hasPcRangeSinkAt, dispatchPcRangeSink, ne_eq, List.map_eq_nil_iff, List.filter_eq_nil_iff,
    List.any_eq_true]
  push Not
  rfl

end Registry

/-! ## What is fired -/

section Fired

variable {ranges : PcRanges κ} {calls : List (PcRangeEntry κ)} {cpu : Cpu} {instr : Instr}
  {s t : MntState} {policy : Policy} {events : List ConsumerEvent}

theorem firedCallbacks_propagate (cs : List CleanCall) (code : List InsertedCall) :
    firedCallbacks ranges (cs.map .propagate ++ code) = firedCallbacks ranges code := by
  induction cs with
  | nil => rfl
  | cons c cs ih => exact ih

/-- An instruction that is not skipped fires the ranges that contain it, unless it has no
address. -/
theorem fired_of_kept (cpu : Cpu) (ranges : PcRanges κ)
    (kept : mntSkips instr.pc s = .ok (false, t)) :
    ∃ code, eventBbInsn cpu ranges true instr s = .ok (code, t) ∧
      firedCallbacks ranges code =
        if instr.pc = 0 then [] else dispatchPcRangeSink ranges instr.pc := by
  refine ⟨_, by rw [eventBbInsn, kept]; rfl, ?_⟩
  rw [firedCallbacks_propagate]
  by_cases address : instr.pc = 0
  · rw [if_pos address, if_neg fun h => h.1 address]
    rfl
  · rw [if_neg address]
    by_cases found : hasPcRangeSinkAt ranges instr.pc = true
    · rw [if_pos ⟨address, found⟩]
      exact List.append_nil _
    · rw [if_neg fun h => found h.2, of_not_not (mt hasPcRangeSinkAt_iff.mpr found)]
      rfl

theorem fired_of_skipped (skipped : mntSkips instr.pc s = .ok (true, t)) :
    eventBbInsn cpu ranges true instr s = .ok ([], t) := by
  rw [eventBbInsn, skipped]
  rfl

/-- In any state of the consumer the instruction is instrumented; an execution fires the ranges
asked for, each once and in their order, if and only if there are none, or the instruction has an
address that the consumer does not report. -/
theorem pc_range_sinks_fire_iff (run : Run ConsumerStep (MntState.init policy) events s)
    (cpu : Cpu) (calls : List (PcRangeEntry κ)) (instr : Instr) :
    ∃ code t, eventBbInsn cpu (registerAll calls) true instr s = .ok (code, t) ∧
      (firedCallbacks (registerAll calls) code = (askedAt calls instr.pc).map (·.firing instr.pc) ↔
        askedAt calls instr.pc = [] ∨
          instr.pc ≠ 0 ∧ ∃ t, s.isMnt instr.pc = .ok (false, t)) := by
  obtain ⟨b, t, answer, -, -⟩ := MntState.isMnt_total (consumed_of_run run).cache instr.pc
  by_cases address : instr.pc = 0
  · have kept : mntSkips instr.pc s = .ok (false, s) := by
      rw [mntSkips, if_neg (not_not.mpr address)]
    obtain ⟨code, inserted, fired⟩ := fired_of_kept cpu (registerAll calls) kept
    refine ⟨code, s, inserted, ?_⟩
    rw [fired, if_pos address, eq_comm, List.map_eq_nil_iff]
    simp [address]
  · have skips : mntSkips instr.pc s = .ok (b, t) := by rw [mntSkips, if_pos address, answer]
    cases b with
    | true =>
      refine ⟨[], t, fired_of_skipped skips, ?_⟩
      change [] = _ ↔ _
      rw [eq_comm, List.map_eq_nil_iff, answer]
      simp
    | false =>
      obtain ⟨code, inserted, fired⟩ := fired_of_kept cpu (registerAll calls) skips
      refine ⟨code, t, inserted, ?_⟩
      rw [fired, if_neg address, dispatchPcRangeSink_registerAll]
      exact iff_of_true rfl (.inr ⟨address, t, answer⟩)

end Fired

/-- A summarized routine, as the summary hook registers it. -/
def summarized : MntState := (MntState.init .lean).addRtnRange 0x1000 0x1100

theorem summarized_run :
    Run ConsumerStep (MntState.init .lean) [.addRtnRange 0x1000 0x1100] summarized :=
  .snoc .nil .addRtnRange

theorem summarized_isMnt {pc : ADDRINT} {b : Bool} {t : MntState}
    (answer : summarized.isMnt pc = .ok (b, t)) :
    b = true ↔ 0x1000 ≤ pc ∧ pc < 0x1100 := by
  have separate : summarized.Separate := by rintro pc i j im jm ⟨⟩
  rw [MntState.isMnt_answer (consumed_of_run summarized_run).cache separate (by decide) answer,
    scanAnswer_iff separate, rtnRangeContains_of_run summarized_run]
  constructor
  · rintro (⟨im, ⟨⟩, -⟩ | ⟨r, hr, covers, -⟩)
    obtain rfl : r = (0x1000, 0x1100) := List.mem_singleton.mp hr
    exact covers
  · intro covers
    refine .inr ⟨(0x1000, 0x1100), .head _, covers, fun q hq _ => ?_⟩
    rw [List.mem_singleton.mp hq]
    exact BitVec.le_refl _

/-- A range that begins inside the routine and goes on after it. -/
def fromInside : PcRangeEntry Unit := ⟨0x1080, 0x1200, ()⟩

def nopAt (pc : ADDRINT) : Instr := ⟨.other, [], [], .none, pc⟩

/-- Behind the routine the range fires. -/
theorem pc_range_sinks_fire_iff_behind : ∃ code t,
    eventBbInsn idleCpu (registerAll [fromInside]) true (nopAt 0x1180) summarized = .ok (code, t) ∧
      firedCallbacks (registerAll [fromInside]) code = [((), ⟨0x1180, ⟨[], []⟩⟩)] := by
  obtain ⟨code, t, inserted, fires⟩ :=
    pc_range_sinks_fire_iff summarized_run idleCpu [fromInside] (nopAt 0x1180)
  obtain ⟨b, u, answer, -, -⟩ :=
    MntState.isMnt_total (consumed_of_run summarized_run).cache 0x1180
  have kept : b = false := Bool.eq_false_iff.mpr fun h =>
    absurd ((summarized_isMnt answer).mp h) (by decide)
  exact ⟨code, t, inserted, fires.mpr (.inr ⟨by decide, u, kept ▸ answer⟩)⟩

/-- Inside the routine the MNT test comes first and the range does not fire. -/
theorem pc_range_sinks_miss_summarized :
    ¬ ∀ (policy : Policy) (events : List ConsumerEvent) (s : MntState) (cpu : Cpu)
      (calls : List (PcRangeEntry Unit)) (instr : Instr) (code : List InsertedCall) (t : MntState),
      Run ConsumerStep (MntState.init policy) events s →
      eventBbInsn cpu (registerAll calls) true instr s = .ok (code, t) →
      firedCallbacks (registerAll calls) code =
        (askedAt calls instr.pc).map (·.firing instr.pc) := by
  intro claim
  obtain ⟨code, t, inserted, fires⟩ :=
    pc_range_sinks_fire_iff summarized_run idleCpu [fromInside] (nopAt 0x1090)
  have fired := claim _ _ _ _ _ _ _ _ summarized_run inserted
  obtain none | ⟨-, u, kept⟩ := fires.mp fired
  · exact absurd none (by decide)
  · exact absurd ((summarized_isMnt kept).mpr (by decide)) (by decide)

end LibdftDr
