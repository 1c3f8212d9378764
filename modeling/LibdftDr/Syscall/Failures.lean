import LibdftDr.Syscall.Painting

/-!
# Calls that fail

The kernel reports a failure as an error number between -4095 and -1 in the result. The hooks
test for it in different ways: `post_mmap_hook` knows only -1, `dup` compares with -1, and
`open`, `dup2` and `dup3` test nothing. `fdset_unchanged_iff` and `failed_call_quiet_iff` say
which failures change the tracked descriptors, the shadow and the counters all the same.
-/
namespace LibdftDr
open Library Library.Action

/-- The raw result is an error number. -/
def SyscallCtx.Failed (ctx : SyscallCtx) : Prop := -4095 ≤ ctx.ret.toInt ∧ ctx.ret.toInt ≤ -1

/-! ## Descriptors -/

inductive FdHook where
  | openFile | openatFile | dup | dup2 | dup3 | close
  deriving DecidableEq

def FdHook.run (os : OsView) (filename : Text) (ctx : SyscallCtx) (fdset : Finset INT32) :
    FdHook → Finset INT32
  | .openFile => postOpenHook os filename ctx fdset
  | .openatFile => postOpenatHook os filename ctx fdset
  | .dup => postDupHook ctx fdset
  | .dup2 => postDup2Hook ctx fdset
  | .dup3 => postDup3Hook ctx fdset
  | .close => postCloseHook ctx fdset

/-- What keeps a hook from inserting a descriptor after a failure. For the open hooks it is the
text of the error, for which `fdname` is asked as if it were a path. -/
def FdHook.Ignores (os : OsView) (filename : Text) (ctx : SyscallCtx) (fdset : Finset INT32) :
    FdHook → Prop
  | .openFile | .openatFile =>
    ¬ filename <:+: os.fdname (toInt32 ctx.ret) ∨
      os.pathIsdir (os.fdname (toInt32 ctx.ret)) = true ∨ toInt32 ctx.ret ∈ fdset
  | .dup => toInt32 (ctx.arg 0) ∉ fdset ∨ ctx.ret = -1 ∨ toInt32 ctx.ret ∈ fdset
  | .dup2 | .dup3 => toInt32 (ctx.arg 0) ∉ fdset ∨ toInt32 (ctx.arg 1) ∈ fdset
  | .close => True

section Descriptors

variable {os : OsView} {filename : Text} {ctx : SyscallCtx} {fdset : Finset INT32}

/-- A failure stays negative as an `int`. -/
theorem SyscallCtx.Failed.toInt32_neg (h : ctx.Failed) : (toInt32 ctx.ret).toInt < 0 := by
  obtain ⟨lo, hi⟩ := h
  simp only [toInt32, BitVec.toInt_eq_toNat_cond, BitVec.toNat_setWidth] at lo hi ⊢
  have := ctx.ret.isLt
  split_ifs at lo hi ⊢ <;> omega

theorem SyscallCtx.Failed.toInt32_eq_iff (h : ctx.Failed) :
    toInt32 ctx.ret = -1 ↔ ctx.ret = -1 := by
  obtain ⟨lo, hi⟩ := h
  constructor
  · intro e
    have low := congrArg BitVec.toNat e
    simp only [toInt32, BitVec.toInt_eq_toNat_cond, BitVec.toNat_setWidth] at lo hi low
    have minus : (-1 : INT32).toNat = 2 ^ 32 - 1 := by decide
    apply BitVec.eq_of_toNat_eq
    have minus' : (-1 : ADDRINT).toNat = 2 ^ 64 - 1 := by decide
    have := ctx.ret.isLt
    split_ifs at lo hi <;> omega
  · intro e
    rw [e]
    decide

theorem insert_eq_self_iff {P : Prop} [Decidable P] {fd : INT32} :
    (if P then insert fd fdset else fdset) = fdset ↔ ¬ P ∨ fd ∈ fdset := by
  split_ifs with h <;> simp [h]

end Descriptors

/-- After a failed call `fdset` is as before if and only if the hook ignores the result. -/
theorem fdset_unchanged_iff {os : OsView} {filename : Text} {ctx : SyscallCtx}
    {fdset : Finset INT32} {hook : FdHook} (failed : ctx.Failed) :
    (hook.run os filename ctx fdset = fdset ∧
        ∀ fd ∈ hook.run os filename ctx fdset, fd.toInt < 0 → fd ∈ fdset) ↔
      hook.Ignores os filename ctx fdset := by
  have same : (hook.run os filename ctx fdset = fdset ∧
      ∀ fd ∈ hook.run os filename ctx fdset, fd.toInt < 0 → fd ∈ fdset) ↔
      hook.run os filename ctx fdset = fdset :=
    ⟨And.left, fun e => ⟨e, fun fd h _ => e ▸ h⟩⟩
  rw [same]
  have open_ : postOpenHook os filename ctx fdset = fdset ↔
      FdHook.openFile.Ignores os filename ctx fdset := by
    simp only [postOpenHook, FdHook.Ignores, inDtrackerWhitelist, ← findText_isSome]
    grind
  have dupOnto_ : dupOnto ctx fdset = fdset ↔ FdHook.dup2.Ignores os filename ctx fdset := by
    simp only [dupOnto, insert_eq_self_iff, FdHook.Ignores]
  cases hook with
  | openFile => exact open_
  | openatFile => exact open_
  | dup =>
    simp only [FdHook.run, postDupHook, insert_eq_self_iff, FdHook.Ignores,
      ← failed.toInt32_eq_iff]
    grind
  | dup2 => exact dupOnto_
  | dup3 => exact dupOnto_
  | close =>
    simp only [FdHook.run, postCloseHook, failed.toInt32_neg, if_true, FdHook.Ignores]

/-- `strerror(ENOENT)`. -/
def noSuchFile : Text :=
  ['N', 'o', ' ', 's', 'u', 'c', 'h', ' ', 'f', 'i', 'l', 'e', ' ', 'o', 'r', ' ',
    'd', 'i', 'r', 'e', 'c', 't', 'o', 'r', 'y']

/-- No descriptor is open, so every name is an error text. -/
def noFiles : OsView where
  fdname _ := noSuchFile
  pathIsdir _ := false

/-- `open` fails with `ENOENT` and leaves `fdset` when the source is called `in.dat`; `dup` of a
tracked descriptor fails with `EMFILE` and inserts the error number. -/
theorem fdset_unchanged_iff_open :
    FdHook.openFile.run noFiles ['i', 'n', '.', 'd', 'a', 't'] (fdCtx 0 0 (-2)) ∅ = ∅ ∧
      FdHook.dup.run noFiles [] (fdCtx 3 0 (-24)) {3} ≠ {3} := by
  constructor
  · have ignores :
        FdHook.openFile.Ignores noFiles ['i', 'n', '.', 'd', 'a', 't'] (fdCtx 0 0 (-2)) ∅ :=
      Or.inl (by decide)
    exact ((fdset_unchanged_iff ⟨by decide, by decide⟩).mpr ignores).1
  · intro same
    have ignores : FdHook.dup.Ignores noFiles [] (fdCtx 3 0 (-24)) {3} :=
      (fdset_unchanged_iff ⟨by decide, by decide⟩).mp ⟨same, fun fd h _ => same ▸ h⟩
    rcases ignores with h | h | h <;> exact absurd h (by decide)

/-- With an empty source filename every failed `open` inserts its error number. -/
theorem fdset_changed_by_failed_open :
    ¬ ∀ (os : OsView) (filename : Text) (ctx : SyscallCtx) (fdset : Finset INT32) (hook : FdHook),
      ctx.Failed → hook.run os filename ctx fdset = fdset ∧
        ∀ fd ∈ hook.run os filename ctx fdset, fd.toInt < 0 → fd ∈ fdset := by
  intro claim
  have same := (claim noFiles [] (fdCtx 0 0 (-2)) ∅ .openFile ⟨by decide, by decide⟩).1
  have inserted : (-2 : INT32) ∈ FdHook.openFile.run noFiles [] (fdCtx 0 0 (-2)) ∅ := by decide
  rw [same] at inserted
  exact absurd inserted (Finset.notMem_empty _)

/-! ## Memory -/

/-- `g_src_events` and `g_src_bytes`. -/
structure SourceCounters where
  events : UINT64
  bytes : UINT64

/-- `g_src_events++; g_src_bytes += n`. -/
def SourceCounters.count (c : SourceCounters) (n : UINT64) : SourceCounters :=
  ⟨c.events + 1, c.bytes + n⟩

namespace PostHook

/-- The counters after the hook, which counts before it paints. -/
def counters (os : KernelView) (fdset : Finset INT32) (ctx : SyscallCtx) (c : SourceCounters) :
    PostHook → SourceCounters
  | .read =>
    if ctx.ret.toInt ≤ 0 then c
    else
      let nbytes : UINT32 := ctx.ret.setWidth 32
      if toInt32 (ctx.arg 0) ∈ fdset then c.count (nbytes.setWidth 64) else c
  | .pread64 =>
    if ctx.ret.toInt < 0 then c
    else
      let nr : UINT32 := ctx.ret.setWidth 32
      if toInt32 (ctx.arg 0) ∈ fdset then c.count (nr.setWidth 64) else c
  | .mmap mmapType =>
    if ctx.ret = -1 then c
    else
      let fd := toInt32 (ctx.arg 4)
      if 0 ≤ fd.toInt ∧ fd ∈ fdset then
        match mmapStart os mmapType ctx with
        | none => c
        | some _ => c.count (ctx.arg 1)
      else c
  | .munmap | .cleanup _ => c

/-- The hook returns, and shadow memory and the counters are as before and were not read. -/
structure Quiet (os : KernelView) (fdset : Finset INT32) (ctx : SyscallCtx) (s : Shadow)
    (c : SourceCounters) (h : PostHook) : Prop where
  memory : ∃ t, h.run os fdset ctx s = .ok (.returned, t) ∧ ∀ a, t.cell (.mem a) = s.cell (.mem a)
  counters : h.counters os fdset ctx c = c
  reads : h.reads os fdset ctx = ∅

/-- What keeps a hook quiet after a failure. The mapping hook takes every error number but -1
for the address of a mapping, and clears or paints that range. -/
def Spares (fdset : Finset INT32) (ctx : SyscallCtx) (s : Shadow) : PostHook → Prop
  | .mmap _ => ctx.ret = -1 ∨
    (¬ (0 ≤ (toInt32 (ctx.arg 4)).toInt ∧ toInt32 (ctx.arg 4) ∈ fdset) ∧
      ∀ c ∈ memSpan (mmapBuf ctx) (ctx.arg 1).toNat, s.cell c = clearedVal)
  | .read | .pread64 | .munmap | .cleanup _ => True

section Quiet

variable {os : KernelView} {fdset : Finset INT32} {ctx : SyscallCtx} {s : Shadow}
  {c : SourceCounters} {h : PostHook}

theorem quiet_of_skip (run : h.run os fdset ctx = pure .returned)
    (counters : h.counters os fdset ctx c = c) (paints : h.paints os fdset ctx = none) :
    h.Quiet os fdset ctx s c where
  memory := ⟨s, by rw [run]; rfl, fun _ => rfl⟩
  counters := counters
  reads := by simp [PostHook.reads, paints]

/-- Counting changes the counters. -/
theorem count_ne (n : UINT64) : c.count n ≠ c := by
  intro e
  have events := congrArg SourceCounters.events e
  simp only [SourceCounters.count] at events
  have := congrArg BitVec.toNat events
  simp only [BitVec.toNat_add] at this
  have one : (1 : UINT64).toNat = 1 := rfl
  have := c.events.isLt
  omega

/-- A failed mapping of a tracked descriptor ends the process or counts bytes that nobody read. -/
theorem not_quiet_of_tracked {mmapType : Bool} (ne : ctx.ret ≠ -1)
    (tracked : 0 ≤ (toInt32 (ctx.arg 4)).toInt ∧ toInt32 (ctx.arg 4) ∈ fdset) :
    ¬ (PostHook.mmap mmapType).Quiet os fdset ctx s c := by
  intro quiet
  cases hs : mmapStart os mmapType ctx with
  | none =>
    obtain ⟨t, run, -⟩ := quiet.memory
    simp only [PostHook.run, postMmapHook, if_neg ne, if_pos tracked, hs] at run
    cases run
  | some start =>
    apply count_ne (c := c) (ctx.arg 1)
    simpa only [PostHook.counters, if_neg ne, if_pos tracked, hs] using quiet.counters

theorem quiet_iff_of_untracked {mmapType : Bool} (ne : ctx.ret ≠ -1)
    (untracked : ¬ (0 ≤ (toInt32 (ctx.arg 4)).toInt ∧ toInt32 (ctx.arg 4) ∈ fdset)) :
    (PostHook.mmap mmapType).Quiet os fdset ctx s c ↔
      ∀ c ∈ memSpan (mmapBuf ctx) (ctx.arg 1).toNat, s.cell c = clearedVal := by
  obtain ⟨dir, clear, -⟩ := clearBytes_run s (mmapBuf ctx) (ctx.arg 1).toNat
  have run : (PostHook.mmap mmapType).run os fdset ctx s = .ok (.returned, s.withTagDir dir) := by
    simp only [PostHook.run, postMmapHook, if_neg ne, if_neg untracked]
    rw [bind_of_ok clear]
    rfl
  have none : (PostHook.mmap mmapType).paints os fdset ctx = none :=
    if_neg fun h => untracked h.2
  rw [← clearBytes_keeps_iff clear]
  constructor
  · intro quiet
    obtain ⟨t, run', same⟩ := quiet.memory
    cases run.symm.trans run'
    exact same
  · intro same
    exact ⟨⟨_, run, same⟩, by simp only [PostHook.counters, if_neg ne, if_neg untracked],
      by simp [PostHook.reads, none]⟩

end Quiet

end PostHook

/-- After a failed call the post hook leaves shadow memory and the counters alone and reads no
shadow if and only if it is not the mapping hook, or the error is -1, or the descriptor is
untracked and the range that is taken for the mapping was empty. -/
theorem failed_call_quiet_iff {os : KernelView} {fdset : Finset INT32} {ctx : SyscallCtx}
    {s : Shadow} {c : SourceCounters} {h : PostHook} (failed : ctx.Failed) :
    h.Quiet os fdset ctx s c ↔ h.Spares fdset ctx s := by
  obtain ⟨-, hi⟩ := failed
  have neg : ctx.ret.toInt < 0 := by omega
  have nonpos : ctx.ret.toInt ≤ 0 := by omega
  cases h with
  | read =>
    refine iff_of_true (PostHook.quiet_of_skip ?_ (if_pos nonpos) (if_neg (by omega))) trivial
    simp only [PostHook.run, postReadHook, if_pos nonpos, pure_bind]
  | pread64 =>
    refine iff_of_true (PostHook.quiet_of_skip ?_ (if_pos neg) (if_neg (by omega))) trivial
    simp only [PostHook.run, postPread64Hook, if_pos neg, pure_bind]
  | munmap =>
    refine iff_of_true (PostHook.quiet_of_skip ?_ rfl rfl) trivial
    simp only [PostHook.run, postMunmapHook, if_pos neg, pure_bind]
  | cleanup desc =>
    refine iff_of_true (PostHook.quiet_of_skip ?_ rfl rfl) trivial
    simp only [PostHook.run, defaultPost, if_pos neg, pure_bind]
  | mmap mmapType =>
    by_cases ret : ctx.ret = -1
    · refine iff_of_true (PostHook.quiet_of_skip ?_ (if_pos ret) (if_neg fun h => h.1 ret))
        (.inl ret)
      simp only [PostHook.run, postMmapHook, if_pos ret]
    · by_cases tracked : 0 ≤ (toInt32 (ctx.arg 4)).toInt ∧ toInt32 (ctx.arg 4) ∈ fdset
      · refine iff_of_false (PostHook.not_quiet_of_tracked ret tracked) ?_
        rintro (h | h)
        · exact ret h
        · exact h.1 tracked
      · rw [PostHook.quiet_iff_of_untracked ret tracked]
        constructor
        · exact fun empty => .inr ⟨tracked, empty⟩
        · rintro (h | h)
          · exact absurd h ret
          · exact h.2

def noKernel : KernelView where
  fdname _ := noSuchFile
  pathIsdir _ := false
  seekCur _ := 0
  seekEnd _ := 0
  statSize _ := none
  pread64 _ := -1
  sameStart _ _ := false

/-- `mmap` of a page of descriptor 3. -/
def mmapPage (ret : ADDRINT) : SyscallCtx where
  arg i := if i.val = 1 then 4096 else if i.val = 3 then 2 else if i.val = 4 then 3 else 0
  ret := ret

theorem mmapPage_failed : (mmapPage (-22)).Failed := ⟨by decide, by decide⟩

/-- A mapping that fails with `EINVAL` is quiet when the descriptor is untracked and no memory is
tainted, and not when the descriptor is tracked. -/
theorem failed_call_quiet_iff_einval :
    (PostHook.mmap false).Quiet noKernel ∅ (mmapPage (-22)) Shadow.new ⟨0, 0⟩ ∧
      ¬ (PostHook.mmap false).Quiet noKernel {3} (mmapPage (-22)) Shadow.new ⟨0, 0⟩ := by
  constructor
  · refine (failed_call_quiet_iff mmapPage_failed).mpr (.inr ⟨fun h => ?_, ?_⟩)
    · exact absurd h.2 (Finset.notMem_empty _)
    · rintro c ⟨i, hi, rfl⟩
      exact TagDir.tagAt_new _
  · intro quiet
    rcases (failed_call_quiet_iff mmapPage_failed).mp quiet with h | h
    · exact absurd h (by decide)
    · exact h.1 (by decide)

/-- The hook counts a page of taint for a mapping that was not made. -/
theorem failed_call_not_quiet :
    ¬ ∀ (os : KernelView) (fdset : Finset INT32) (ctx : SyscallCtx) (s : Shadow)
      (c : SourceCounters) (h : PostHook), ctx.Failed → h.Quiet os fdset ctx s c := by
  intro claim
  exact PostHook.not_quiet_of_tracked (by decide) (by decide)
    (claim noKernel {3} (mmapPage (-22)) Shadow.new ⟨0, 0⟩ (.mmap false) mmapPage_failed)

end LibdftDr
