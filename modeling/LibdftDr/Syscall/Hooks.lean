import LibdftDr.Core.Compare
import LibdftDr.Syscall.Fds

/-!
# The hooks that paint and clear

After a read of a tracked descriptor each byte of the buffer gets the label of its file
offset; other reads, mappings and unmappings clear theirs. `PostHook.paints` says what a hook
paints and `PostHook.buffer` where it may write; `PostHook.flow` is about all of them.
-/
namespace LibdftDr
open Library Library.Action

def PAGE_SZ : UINT64 := 4096
def MAP_GROWSDOWN : INT32 := 0x100

/-- What the hooks ask the kernel. -/
structure KernelView extends OsView where
  /-- `lseek(fd, 0, SEEK_CUR)` and `lseek(fd, 0, SEEK_END)`. -/
  seekCur : INT32 → UINT64
  seekEnd : INT32 → UINT64
  /-- `st_size`, if `stat` succeeds. -/
  statSize : Text → Option UINT64
  /-- The result of `pread64(fd, buf2, 4, 0)`. -/
  pread64 : INT32 → INT32
  /-- `strcmp(buf2, a) == 0` after it. -/
  sameStart : INT32 → ADDRINT → Bool

/-- `libdft_die` ends the process and does not return. -/
inductive HookEnd where
  | returned | died
  deriving DecidableEq

/-! ## The hooks -/

/-- The label of byte `i` is its file offset, in 32 bits. -/
def offsetLabel (start : UINT64) (i : ℕ) : UINT32 := (byteAt start i).setWidth 32

/-- The loop of the three hooks that paint. The old tag is read and not used. -/
def paintBytes (buf : ADDRINT) (start : UINT64) (n : ℕ) : Engine PUnit :=
  loop n fun i => do
    let _ ← getb (byteAt buf i)
    let t ← setTag (offsetLabel start i)
    setb (byteAt buf i) t

def clearBytes (buf : ADDRINT) (n : ℕ) : Engine PUnit :=
  loop n fun i => setb (byteAt buf i) clearedVal

def postReadHook (os : KernelView) (fdset : Finset INT32) (ctx : SyscallCtx) : Engine PUnit :=
  if ctx.ret.toInt ≤ 0 then pure ⟨⟩
  else
    let nbytes : UINT32 := ctx.ret.setWidth 32
    let fd := toInt32 (ctx.arg 0)
    if fd ∈ fdset then
      paintBytes (ctx.arg 1) (os.seekCur fd - nbytes.setWidth 64) nbytes.toNat
    else clearBytes (ctx.arg 1) nbytes.toNat

def postPread64Hook (fdset : Finset INT32) (ctx : SyscallCtx) : Engine PUnit :=
  if ctx.ret.toInt < 0 then pure ⟨⟩
  else
    let nr : UINT32 := ctx.ret.setWidth 32
    if toInt32 (ctx.arg 0) ∈ fdset then paintBytes (ctx.arg 1) (ctx.arg 3) nr.toNat
    else clearBytes (ctx.arg 1) nr.toNat

/-- The length rounded up to whole pages, and by a page more when it is whole already. -/
def mmapOffset (len : UINT64) : UINT64 :=
  if len < PAGE_SZ then PAGE_SZ else len + PAGE_SZ - len % PAGE_SZ

def mmapBuf (ctx : SyscallCtx) : ADDRINT :=
  if toInt32 (ctx.arg 3) &&& MAP_GROWSDOWN ≠ 0 then ctx.ret + mmapOffset (ctx.arg 1) - 1
  else ctx.ret

/-- The file offset of the first byte; `none` where the hook dies. -/
def mmapStart (os : KernelView) (mmapType : Bool) (ctx : SyscallCtx) : Option UINT64 :=
  let fd := toInt32 (ctx.arg 4)
  if mmapType = false then some (os.seekCur fd)
  else
    let fsize := (os.statSize (os.fdname fd)).getD (os.seekEnd fd)
    let offsetStart := ctx.arg 5
    if (fsize.setWidth 32 : UINT32) < offsetStart.setWidth 32 then
      if os.pread64 fd = 4 ∧ os.sameStart fd (mmapBuf ctx) = true then some 0 else none
    else some offsetStart

/-- Only `MAP_FAILED` counts as a failure; the kernel's other error values do not. -/
def postMmapHook (os : KernelView) (mmapType : Bool) (fdset : Finset INT32) (ctx : SyscallCtx) :
    Engine HookEnd :=
  if ctx.ret = -1 then pure .returned
  else
    let fd := toInt32 (ctx.arg 4)
    let nr := (ctx.arg 1).toNat
    if 0 ≤ fd.toInt ∧ fd ∈ fdset then
      match mmapStart os mmapType ctx with
      | none => pure .died
      | some start => do
        paintBytes (mmapBuf ctx) start nr
        pure .returned
    else do
      clearBytes (mmapBuf ctx) nr
      pure .returned

def postMunmapHook (ctx : SyscallCtx) : Engine PUnit :=
  if ctx.ret.toInt < 0 then pure ⟨⟩ else clearBytes (ctx.arg 0) (ctx.arg 1).toNat

/-- The arguments of a call that the kernel writes through, by their size in bytes. -/
structure SyscallDesc where
  nargs : ℕ
  mapArgs : Fin 6 → UINT64

/-- What `event_post_syscall` does for a call without a hook. -/
def defaultPost (desc : SyscallDesc) (ctx : SyscallCtx) : Engine PUnit :=
  if ctx.ret.toInt < 0 then pure ⟨⟩
  else
    each ((List.finRange 6).take desc.nargs) (fun i _ =>
      onlyIf (0 < desc.mapArgs i ∧ ctx.arg i ≠ 0) do
        clrn (ctx.arg i) ((desc.mapArgs i).setWidth 32)) ⟨⟩

/-- The post-syscall work that touches the shadow. -/
inductive PostHook where
  | read | pread64 | mmap (mmapType : Bool) | munmap | cleanup (desc : SyscallDesc)

namespace PostHook

def run (os : KernelView) (fdset : Finset INT32) (ctx : SyscallCtx) : PostHook → Engine HookEnd
  | .read => do postReadHook os fdset ctx; pure .returned
  | .pread64 => do postPread64Hook fdset ctx; pure .returned
  | .mmap mmapType => postMmapHook os mmapType fdset ctx
  | .munmap => do postMunmapHook ctx; pure .returned
  | .cleanup desc => do defaultPost desc ctx; pure .returned

end PostHook

/-! ## What they touch -/

/-- A range of memory that gets the labels from `start` on. -/
structure Paint where
  buf : ADDRINT
  start : UINT64
  n : ℕ

def Paint.labels (p : Paint) : Set ℕ := {l | ∃ i < p.n, l = (offsetLabel p.start i).toNat}

namespace PostHook

/-- What the hook paints, if it paints. -/
def paints (os : KernelView) (fdset : Finset INT32) (ctx : SyscallCtx) : PostHook → Option Paint
  | .read =>
    let nbytes : UINT32 := ctx.ret.setWidth 32
    let fd := toInt32 (ctx.arg 0)
    if 0 < ctx.ret.toInt ∧ fd ∈ fdset then
      some ⟨ctx.arg 1, os.seekCur fd - nbytes.setWidth 64, nbytes.toNat⟩
    else none
  | .pread64 =>
    if 0 ≤ ctx.ret.toInt ∧ toInt32 (ctx.arg 0) ∈ fdset then
      some ⟨ctx.arg 1, ctx.arg 3, (ctx.ret.setWidth 32 : UINT32).toNat⟩
    else none
  | .mmap mmapType =>
    if ctx.ret ≠ -1 ∧ 0 ≤ (toInt32 (ctx.arg 4)).toInt ∧ toInt32 (ctx.arg 4) ∈ fdset then
      (mmapStart os mmapType ctx).map fun start => ⟨mmapBuf ctx, start, (ctx.arg 1).toNat⟩
    else none
  | .munmap | .cleanup _ => none

/-- The memory that the call may have written. -/
def buffer (ctx : SyscallCtx) : PostHook → Set Cell
  | .read | .pread64 => memSpan (ctx.arg 1) (ctx.ret.setWidth 32 : UINT32).toNat
  | .mmap _ => memSpan (mmapBuf ctx) (ctx.arg 1).toNat
  | .munmap => memSpan (ctx.arg 0) (ctx.arg 1).toNat
  | .cleanup desc =>
    {c | ∃ i, c ∈ memSpan (ctx.arg i) ((desc.mapArgs i).setWidth 32 : UINT32).toNat}

def reads (os : KernelView) (fdset : Finset INT32) (ctx : SyscallCtx) (h : PostHook) :
    Set ADDRINT :=
  {a | ∃ p ∈ h.paints os fdset ctx, a ∈ addrSpan p.buf p.n}

/-- The labels that the hook brings in. -/
def labels (os : KernelView) (fdset : Finset INT32) (ctx : SyscallCtx) (h : PostHook) : Set ℕ :=
  {l | ∃ p ∈ h.paints os fdset ctx, l ∈ p.labels}

end PostHook

section Flows

variable {D : Set Cell} {L : Set ℕ} {held : Set Tag} {buf : ADDRINT} {start : UINT64} {n : ℕ}

theorem paintBytes_flow (hD : memSpan buf n ⊆ D) (hL : Paint.labels ⟨buf, start, n⟩ ⊆ L) :
    Flow D L held (InRange buf n) (fun _ => ∅) (paintBytes buf start n) := by
  refine World.Triple.loop fun i hi => ?_
  exact ((getb_flow _).bind fun _ => (setTag_flow (hL ⟨i, hi, rfl⟩)).bind fun t =>
    setb_flow (by simp) (hD (mem_memSpan_self hi))).guard_iff (by simp)

theorem clearBytes_flow (hD : memSpan buf n ⊆ D) :
    Flow D L held True (fun _ => ∅) (clearBytes buf n) :=
  World.Triple.loop_of_true fun _ hi =>
    clearedVal_flow (setb_flow (by simp) (hD (mem_memSpan_self hi)))

variable {os : KernelView} {fdset : Finset INT32} {ctx : SyscallCtx}

/-- Each hook is verified against what it paints. -/
def PostHook.Paints (os : KernelView) (fdset : Finset INT32) (ctx : SyscallCtx) (h : PostHook)
    (p : Paint → Prop) : Prop := ∀ x ∈ h.paints os fdset ctx, p x

theorem PostHook.paints_of_none {h : PostHook} {p : Paint → Prop}
    (e : h.paints os fdset ctx = none) : h.Paints os fdset ctx p ↔ True := by
  simp [PostHook.Paints, e]

theorem PostHook.paints_of_some {h : PostHook} {p : Paint → Prop} {x : Paint}
    (e : h.paints os fdset ctx = some x) : h.Paints os fdset ctx p ↔ p x := by
  simp [PostHook.Paints, e]

theorem postReadHook_flow (hL : PostHook.read.Paints os fdset ctx (·.labels ⊆ L)) :
    Flow (PostHook.read.buffer ctx) L held
      (PostHook.read.Paints os fdset ctx fun p => InRange p.buf p.n) (fun _ => ∅)
      (postReadHook os fdset ctx) := by
  simp only [postReadHook]
  split_ifs with failed tracked
  · exact (skip_flow _).guard_iff (PostHook.paints_of_none (if_neg fun h => by omega))
  · have paints : ∀ {p : Paint → Prop}, PostHook.read.Paints os fdset ctx p ↔ p _ :=
      PostHook.paints_of_some (if_pos ⟨not_le.mp failed, tracked⟩)
    exact (paintBytes_flow subset_rfl (paints.mp hL)).guard_iff paints
  · exact (clearBytes_flow subset_rfl).guard_iff
      (PostHook.paints_of_none (if_neg fun h => tracked h.2))

theorem postPread64Hook_flow (hL : PostHook.pread64.Paints os fdset ctx (·.labels ⊆ L)) :
    Flow (PostHook.pread64.buffer ctx) L held
      (PostHook.pread64.Paints os fdset ctx fun p => InRange p.buf p.n) (fun _ => ∅)
      (postPread64Hook fdset ctx) := by
  simp only [postPread64Hook]
  split_ifs with failed tracked
  · exact (skip_flow _).guard_iff (PostHook.paints_of_none (if_neg fun h => by omega))
  · have paints : ∀ {p : Paint → Prop}, PostHook.pread64.Paints os fdset ctx p ↔ p _ :=
      PostHook.paints_of_some (if_pos ⟨not_lt.mp failed, tracked⟩)
    exact (paintBytes_flow subset_rfl (paints.mp hL)).guard_iff paints
  · exact (clearBytes_flow subset_rfl).guard_iff
      (PostHook.paints_of_none (if_neg fun h => tracked h.2))

theorem returned_flow {G : Prop} {f : Engine PUnit} (h : Flow D L held G (fun _ => ∅) f) :
    Flow D L held G (fun _ => ∅) (do f; pure HookEnd.returned) :=
  (h.bind fun _ => skip_flow _).guard_iff (by simp)

theorem postMmapHook_flow {mmapType : Bool}
    (hL : (PostHook.mmap mmapType).Paints os fdset ctx (·.labels ⊆ L)) :
    Flow ((PostHook.mmap mmapType).buffer ctx) L held
      ((PostHook.mmap mmapType).Paints os fdset ctx fun p => InRange p.buf p.n) (fun _ => ∅)
      (postMmapHook os mmapType fdset ctx) := by
  simp only [postMmapHook]
  split_ifs with failed tracked
  · exact (skip_flow _).guard_iff (PostHook.paints_of_none (if_neg fun h => h.1 failed))
  · have start : (PostHook.mmap mmapType).paints os fdset ctx =
        (mmapStart os mmapType ctx).map fun start => ⟨mmapBuf ctx, start, (ctx.arg 1).toNat⟩ :=
      if_pos ⟨failed, tracked⟩
    cases hs : mmapStart os mmapType ctx with
    | none => exact (skip_flow _).guard_iff (PostHook.paints_of_none (by rw [start, hs]; rfl))
    | some offset =>
      have paints : ∀ {p : Paint → Prop}, (PostHook.mmap mmapType).Paints os fdset ctx p ↔ p _ :=
        PostHook.paints_of_some (by rw [start, hs]; rfl)
      exact (returned_flow (paintBytes_flow subset_rfl (paints.mp hL))).guard_iff paints
  · exact (returned_flow (clearBytes_flow subset_rfl)).guard_iff
      (PostHook.paints_of_none (if_neg fun h => tracked h.2))

theorem postMunmapHook_flow :
    Flow (PostHook.munmap.buffer ctx) L held True (fun _ => ∅) (postMunmapHook ctx) :=
  (World.Triple.ite (fun _ => skip_flow _) fun _ => clearBytes_flow subset_rfl).guard_iff (by simp)

theorem defaultPost_flow {desc : SyscallDesc} :
    Flow ((PostHook.cleanup desc).buffer ctx) L held True (fun _ => ∅) (defaultPost desc ctx) := by
  unfold defaultPost
  split_ifs with failed
  · exact skip_flow _
  · refine World.Triple.each_of_true fun i _ => ?_
    have inside : memSpan (ctx.arg i) ((desc.mapArgs i).setWidth 32 : UINT32).toNat ⊆
        (PostHook.cleanup desc).buffer ctx := fun c hc => ⟨i, hc⟩
    exact (World.Triple.onlyIf fun _ => clrn_flow inside).guard_iff (by simp)

/-- A hook writes inside its buffer, brings in the labels it paints, and returns exactly when
every byte it paints is in range. -/
theorem PostHook.flow {h : PostHook} (hL : h.labels os fdset ctx ⊆ L) :
    Flow (h.buffer ctx) L held (∀ a ∈ h.reads os fdset ctx, a ≤ lastAddress) (fun _ => ∅)
      (h.run os fdset ctx) := by
  have labels : h.Paints os fdset ctx (·.labels ⊆ L) := fun p hp l hl => hL ⟨p, hp, hl⟩
  have reads : (∀ a ∈ h.reads os fdset ctx, a ≤ lastAddress) ↔
      h.Paints os fdset ctx fun p => InRange p.buf p.n :=
    ⟨fun g p hp => inRange_iff.mpr fun a ha => g a ⟨p, hp, ha⟩,
      fun g a ⟨p, hp, ha⟩ => inRange_iff.mp (g p hp) a ha⟩
  refine World.Triple.guard_iff ?_ reads
  cases h with
  | read => exact returned_flow (postReadHook_flow labels)
  | pread64 => exact returned_flow (postPread64Hook_flow labels)
  | mmap mmapType => exact postMmapHook_flow labels
  | munmap => exact (returned_flow postMunmapHook_flow).guard_iff (paints_of_none rfl)
  | cleanup desc => exact (returned_flow defaultPost_flow).guard_iff (paints_of_none rfl)

end Flows

end LibdftDr
