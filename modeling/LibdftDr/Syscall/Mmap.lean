import LibdftDr.Syscall.Failures

/-!
# The labels of a mapping

What `post_mmap_hook` should leave in the pages of a new mapping, and when it does so under
`mmap_type` 1. A byte that the tracked file backs carries its file offset and every other byte
is empty: the bytes past the end of the file, anonymous memory, and files that are not tracked.
-/
namespace LibdftDr
open Library Library.Action

def MAP_ANONYMOUS : INT32 := 0x20

/-- The bytes of the pages that hold `n` bytes. -/
def wholePages (n : ℕ) : ℕ := (n + (PAGE_SIZE - 1)) / PAGE_SIZE * PAGE_SIZE

theorem le_wholePages (n : ℕ) : n ≤ wholePages n := by
  unfold wholePages PAGE_SIZE
  omega

/-- The size of the file behind a descriptor: by its name, or by seeking to its end. -/
def KernelView.fileSize (os : KernelView) (fd : INT32) : UINT64 :=
  (os.statSize (os.fdname fd)).getD (os.seekEnd fd)

namespace SyscallCtx

variable (ctx : SyscallCtx)

/-! The arguments of `mmap`. -/

def mapLen : ℕ := (ctx.arg 1).toNat
def mapFd : INT32 := toInt32 (ctx.arg 4)
def mapOffset : ℕ := (ctx.arg 5).toNat

/-- The mapping is one of a file. -/
def Backed : Prop := toInt32 (ctx.arg 3) &&& MAP_ANONYMOUS = 0

instance : Decidable ctx.Backed := inferInstanceAs (Decidable (_ = _))

end SyscallCtx

/-- A call that has made a mapping upwards, as the kernel makes them: of at least one byte, in
user space, of a file from a page of it on. Its offsets are labels. -/
structure Mapped (os : KernelView) (ctx : SyscallCtx) : Prop where
  succeeded : ¬ ctx.Failed
  upwards : toInt32 (ctx.arg 3) &&& MAP_GROWSDOWN = 0
  pos : 0 < ctx.mapLen
  user : InRange ctx.ret (wholePages ctx.mapLen)
  aligned : ctx.mapOffset % PAGE_SIZE = 0
  labels : ctx.mapOffset + ctx.mapLen ≤ 2 ^ 32
  file : ctx.Backed → 0 ≤ ctx.mapFd.toInt ∧ ctx.mapOffset ≤ (os.fileSize ctx.mapFd).toNat

/-- What byte `i` of the pages should carry. -/
def mapLabels (os : KernelView) (fdset : Finset INT32) (ctx : SyscallCtx) (i : ℕ) : Finset ℕ :=
  if ctx.Backed ∧ ctx.mapFd ∈ fdset ∧ ctx.mapOffset + i < (os.fileSize ctx.mapFd).toNat then
    {ctx.mapOffset + i}
  else ∅

/-- The hook returns, and every byte of the pages carries what it should. -/
def Shadow.LabelsMapping (s : Shadow) (os : KernelView) (fdset : Finset INT32)
    (ctx : SyscallCtx) : Prop :=
  ∃ t, postMmapHook os true fdset ctx s = .ok (.returned, t) ∧
    ∀ i < wholePages ctx.mapLen, t.labelsOf (.mem (byteAt ctx.ret i)) = mapLabels os fdset ctx i

/-- What the hook needs: a tracked descriptor stands for a file that is as long as the mapping,
the offset is not past its size in 32 bits, and the bytes between the end of the mapping and
that of its last page already carry what they should. -/
structure MapsWhole (s : Shadow) (os : KernelView) (fdset : Finset INT32) (ctx : SyscallCtx) :
    Prop where
  file : ctx.mapFd ∈ fdset → 0 ≤ ctx.mapFd.toInt → ctx.Backed ∧
    ctx.mapOffset + ctx.mapLen ≤ (os.fileSize ctx.mapFd).toNat ∧
    ctx.mapOffset ≤ (os.fileSize ctx.mapFd).toNat % 2 ^ 32
  tail : ∀ i, ctx.mapLen ≤ i → i < wholePages ctx.mapLen →
    s.labelsOf (.mem (byteAt ctx.ret i)) = mapLabels os fdset ctx i

section Mapped

variable {os : KernelView} {fdset : Finset INT32} {ctx : SyscallCtx} {s : Shadow}

/-- The result -1 is an error number. -/
theorem SyscallCtx.ret_ne_of_not_failed (succeeded : ¬ ctx.Failed) : ctx.ret ≠ -1 := by
  intro e
  apply succeeded
  rw [SyscallCtx.Failed, e]
  decide

theorem Mapped.ne (h : Mapped os ctx) : ctx.ret ≠ -1 := ctx.ret_ne_of_not_failed h.succeeded

theorem Mapped.buf (h : Mapped os ctx) : mmapBuf ctx = ctx.ret := by
  simp [mmapBuf, h.upwards]

theorem Mapped.inRange (h : Mapped os ctx) : InRange ctx.ret ctx.mapLen :=
  fun i hi => h.user i (hi.trans_le (le_wholePages _))

/-- A byte of the last page that is not a byte of the mapping. -/
theorem Mapped.not_mem_of_le (h : Mapped os ctx) {i : ℕ} (lo : ctx.mapLen ≤ i)
    (hi : i < wholePages ctx.mapLen) :
    Cell.mem (byteAt ctx.ret i) ∉ memSpan ctx.ret ctx.mapLen := by
  rintro ⟨j, hj, e⟩
  have := h.user.byteAt_inj hi (by omega) (Cell.mem.inj e)
  omega

/-- The label of byte `i` of a mapping whose offsets are labels. -/
theorem Mapped.offsetLabel_eq (h : Mapped os ctx) {i : ℕ} (hi : i < ctx.mapLen) :
    (offsetLabel (ctx.arg 5) i).toNat = ctx.mapOffset + i := by
  have := h.labels
  simp only [SyscallCtx.mapOffset, offsetLabel, byteAt, BitVec.toNat_setWidth, BitVec.toNat_add,
    BitVec.toNat_ofNat] at this ⊢
  omega

/-- Where the hook starts to count: at the offset, unless that is past the size in 32 bits. -/
theorem Mapped.mmapStart_eq (h : Mapped os ctx) : mmapStart os true ctx =
    if (os.fileSize ctx.mapFd).toNat % 2 ^ 32 < ctx.mapOffset then
      if os.pread64 ctx.mapFd = 4 ∧ os.sameStart ctx.mapFd ctx.ret = true then some 0 else none
    else some (ctx.arg 5) := by
  have offset : ctx.mapOffset % 2 ^ 32 = ctx.mapOffset := by
    have := h.labels
    have := h.pos
    omega
  have test : ((os.fileSize ctx.mapFd).setWidth 32 : UINT32) < (ctx.arg 5).setWidth 32 ↔
      (os.fileSize ctx.mapFd).toNat % 2 ^ 32 < ctx.mapOffset := by
    rw [BitVec.lt_def, BitVec.toNat_setWidth, BitVec.toNat_setWidth, ← offset]
    rfl
  rw [mmapStart, h.buf]
  simp only [Bool.true_eq_false, if_false]
  exact if_congr test rfl rfl

/-- A descriptor that is not tracked: the mapping is cleared, its last page is left. -/
theorem Mapped.run_of_untracked (h : Mapped os ctx) (sound : s.Sound)
    (untracked : ¬ (0 ≤ ctx.mapFd.toInt ∧ ctx.mapFd ∈ fdset)) : ∃ t,
    postMmapHook os true fdset ctx s = .ok (.returned, t) ∧
      Shadow.Le (memSpan ctx.ret ctx.mapLen) s t ∧
      ∀ i < ctx.mapLen, t.labelsOf (.mem (byteAt ctx.ret i)) = ∅ := by
  have clear : Flow (memSpan ctx.ret ctx.mapLen) Set.univ ∅ True (fun _ => ∅)
      (clearBytes ctx.ret ctx.mapLen) := clearBytes_flow subset_rfl
  obtain ⟨dir, run, cleared, -⟩ := clearBytes_run s ctx.ret ctx.mapLen
  obtain ⟨-, sound', -, le⟩ := clear.of_ok sound sound.within_univ run
  refine ⟨s.withTagDir dir, ?_, le, fun i hi => ?_⟩
  · rw [SyscallCtx.mapFd] at untracked
    rw [SyscallCtx.mapLen] at run
    simp only [postMmapHook, if_neg h.ne, if_neg untracked, h.buf]
    rw [bind_of_ok run]
    rfl
  · rw [sound'.labelsOf_eq_empty]
    exact cleared i hi

/-- A tracked descriptor: the mapping is painted from `start` on, its last page is left. -/
theorem Mapped.run_of_tracked (h : Mapped os ctx) (sound : s.Sound) {start : UINT64}
    (tracked : 0 ≤ ctx.mapFd.toInt ∧ ctx.mapFd ∈ fdset) (hs : mmapStart os true ctx = some start)
    (room : s.RoomFor (labelSets start ctx.mapLen)) : ∃ t,
    postMmapHook os true fdset ctx s = .ok (.returned, t) ∧
      Shadow.Le (memSpan ctx.ret ctx.mapLen) s t ∧
      ∀ i < ctx.mapLen, t.labelsOf (.mem (byteAt ctx.ret i)) = {(offsetLabel start i).toNat} := by
  obtain ⟨t, run, -, le, painted⟩ := paintBytes_run sound h.inRange room
  refine ⟨t, ?_, le, painted.bytes⟩
  rw [SyscallCtx.mapFd] at tracked
  rw [SyscallCtx.mapLen] at run
  simp only [postMmapHook, if_neg h.ne, if_pos tracked, h.buf, hs]
  rw [bind_of_ok run]
  rfl

/-- A tracked descriptor with no place to start from: nothing is touched and the tool dies. -/
theorem Mapped.run_of_no_start (h : Mapped os ctx)
    (tracked : 0 ≤ ctx.mapFd.toInt ∧ ctx.mapFd ∈ fdset) (hs : mmapStart os true ctx = none) :
    postMmapHook os true fdset ctx s = .ok (.died, s) := by
  rw [SyscallCtx.mapFd] at tracked
  simp only [postMmapHook, if_neg h.ne, if_pos tracked, hs]
  rfl

/-- What the hook leaves in the mapping and what was in the rest of its last page decide. -/
theorem Mapped.labels_iff_of_run (h : Mapped os ctx) (sound : s.Sound) {t : Shadow}
    (run : postMmapHook os true fdset ctx s = .ok (.returned, t))
    (le : Shadow.Le (memSpan ctx.ret ctx.mapLen) s t) :
    s.LabelsMapping os fdset ctx ↔
      (∀ i < ctx.mapLen, t.labelsOf (.mem (byteAt ctx.ret i)) = mapLabels os fdset ctx i) ∧
        ∀ i, ctx.mapLen ≤ i → i < wholePages ctx.mapLen →
          s.labelsOf (.mem (byteAt ctx.ret i)) = mapLabels os fdset ctx i := by
  have kept : ∀ i, ctx.mapLen ≤ i → i < wholePages ctx.mapLen →
      t.labelsOf (.mem (byteAt ctx.ret i)) = s.labelsOf (.mem (byteAt ctx.ret i)) :=
    fun i lo hi => le.labelsOf_eq sound (h.not_mem_of_le lo hi)
  constructor
  · rintro ⟨t', run', labels⟩
    cases run.symm.trans run'
    refine ⟨fun i hi => labels i (hi.trans_le (le_wholePages _)), fun i lo hi => ?_⟩
    rw [← kept i lo hi]
    exact labels i hi
  · rintro ⟨bytes, tail⟩
    refine ⟨_, run, fun i hi => ?_⟩
    by_cases lo : ctx.mapLen ≤ i
    · rw [kept i lo hi]
      exact tail i lo hi
    · exact bytes i (by omega)

/-- The bytes are painted as they should be from the offset on only, and in a long enough file. -/
theorem Mapped.bytes_iff (h : Mapped os ctx) {start : UINT64} (tracked : ctx.mapFd ∈ fdset)
    (hs : mmapStart os true ctx = some start) :
    (∀ i < ctx.mapLen, {(offsetLabel start i).toNat} = mapLabels os fdset ctx i) ↔
      ctx.Backed ∧ ctx.mapOffset + ctx.mapLen ≤ (os.fileSize ctx.mapFd).toNat ∧
        ctx.mapOffset ≤ (os.fileSize ctx.mapFd).toNat % 2 ^ 32 := by
  rw [h.mmapStart_eq] at hs
  have pos := h.pos
  constructor
  · intro bytes
    have size : ¬ (os.fileSize ctx.mapFd).toNat % 2 ^ 32 < ctx.mapOffset := by
      intro past
      -- the hook counts from 0, which is not the offset
      rw [if_pos past] at hs
      split_ifs at hs
      cases hs
      have first := bytes 0 pos
      have zero : (offsetLabel 0 0).toNat = 0 := rfl
      rw [mapLabels, zero] at first
      split_ifs at first
      · have := Finset.singleton_injective first
        omega
      · simp at first
    rw [if_neg size] at hs
    cases hs
    have all : ∀ i < ctx.mapLen, ctx.Backed ∧
        ctx.mapOffset + i < (os.fileSize ctx.mapFd).toNat := by
      intro i hi
      have labels := bytes i hi
      rw [mapLabels] at labels
      split_ifs at labels with here
      · exact ⟨here.1, here.2.2⟩
      · simp at labels
    have last := (all (ctx.mapLen - 1) (by omega)).2
    exact ⟨(all 0 pos).1, by omega, by omega⟩
  · rintro ⟨backed, whole, size⟩ i hi
    rw [if_neg (by omega)] at hs
    cases hs
    rw [h.offsetLabel_eq hi, mapLabels, if_pos ⟨backed, tracked, by omega⟩]

end Mapped

/-- The pages carry the offsets of the file if and only if the descriptor, where it is tracked,
stands for a file as long as the mapping whose size in 32 bits is not below the offset, and the
rest of the last page was right before. -/
theorem labelsMapping_iff {os : KernelView} {fdset : Finset INT32} {ctx : SyscallCtx} {s : Shadow}
    (h : Mapped os ctx) (sound : s.Sound)
    (room : ctx.mapFd ∈ fdset → ∀ start ∈ mmapStart os true ctx,
      s.RoomFor (labelSets start ctx.mapLen)) :
    s.LabelsMapping os fdset ctx ↔ MapsWhole s os fdset ctx := by
  by_cases tracked : 0 ≤ ctx.mapFd.toInt ∧ ctx.mapFd ∈ fdset
  · cases hs : mmapStart os true ctx with
    | none =>
      have past : (os.fileSize ctx.mapFd).toNat % 2 ^ 32 < ctx.mapOffset := by
        by_contra size
        rw [h.mmapStart_eq, if_neg size] at hs
        cases hs
      refine iff_of_false ?_ fun whole => ?_
      · rintro ⟨t, run, -⟩
        cases (h.run_of_no_start tracked hs).symm.trans run
      · have := (whole.file tracked.2 tracked.1).2.2
        omega
    | some start =>
      obtain ⟨t, run, le, bytes⟩ := h.run_of_tracked sound tracked hs (room tracked.2 start hs)
      have painted : (∀ i < ctx.mapLen,
          t.labelsOf (.mem (byteAt ctx.ret i)) = mapLabels os fdset ctx i) ↔
          ∀ i < ctx.mapLen, {(offsetLabel start i).toNat} = mapLabels os fdset ctx i :=
        forall₂_congr fun i hi => by rw [bytes i hi]
      rw [h.labels_iff_of_run sound run le, painted, h.bytes_iff tracked.2 hs]
      constructor
      · rintro ⟨file, tail⟩
        exact ⟨fun _ _ => file, tail⟩
      · intro whole
        exact ⟨whole.file tracked.2 tracked.1, whole.tail⟩
  · obtain ⟨t, run, le, bytes⟩ := h.run_of_untracked sound tracked
    have none : ∀ i, mapLabels os fdset ctx i = ∅ := fun i =>
      if_neg fun e => tracked ⟨(h.file e.1).1, e.2.1⟩
    rw [h.labels_iff_of_run sound run le]
    constructor
    · rintro ⟨-, tail⟩
      exact ⟨fun mem pos => absurd ⟨pos, mem⟩ tracked, tail⟩
    · intro whole
      exact ⟨fun i hi => (bytes i hi).trans (none i).symm, whole.tail⟩

/-- Each byte of the mapped range carries its absolute file offset when the descriptor is
tracked, whether or not the file is that long, and is empty otherwise. -/
theorem mmap_paints_range {os : KernelView} {fdset : Finset INT32} {ctx : SyscallCtx} {s : Shadow}
    (h : Mapped os ctx) (sound : s.Sound)
    (file : 0 ≤ ctx.mapFd.toInt → ctx.mapFd ∈ fdset →
      ctx.Backed ∧ ctx.mapOffset ≤ (os.fileSize ctx.mapFd).toNat % 2 ^ 32)
    (room : 0 ≤ ctx.mapFd.toInt → ctx.mapFd ∈ fdset →
      s.RoomFor (labelSets (ctx.arg 5) ctx.mapLen)) :
    ∃ t, postMmapHook os true fdset ctx s = .ok (.returned, t) ∧
      ∀ i < ctx.mapLen, t.labelsOf (.mem (byteAt ctx.ret i)) =
        if 0 ≤ ctx.mapFd.toInt ∧ ctx.mapFd ∈ fdset then {ctx.mapOffset + i} else ∅ := by
  by_cases tracked : 0 ≤ ctx.mapFd.toInt ∧ ctx.mapFd ∈ fdset
  · have start : mmapStart os true ctx = some (ctx.arg 5) := by
      rw [h.mmapStart_eq, if_neg]
      exact not_lt.mpr (file tracked.1 tracked.2).2
    obtain ⟨t, run, -, bytes⟩ := h.run_of_tracked sound tracked start (room tracked.1 tracked.2)
    refine ⟨t, run, fun i hi => ?_⟩
    rw [if_pos tracked, bytes i hi, h.offsetLabel_eq hi]
  · obtain ⟨t, run, -, bytes⟩ := h.run_of_untracked sound tracked
    refine ⟨t, run, fun i hi => ?_⟩
    rw [if_neg tracked, bytes i hi]

/-- Descriptor 3 is a file of one byte. -/
def oneByteFile : KernelView := { noKernel with statSize := fun _ => some 1 }

/-- A private mapping of the first `len` bytes of descriptor 3. -/
def mmapFirst (len : UINT64) : SyscallCtx where
  arg i := if i.val = 1 then len else if i.val = 3 then 2 else if i.val = 4 then 3 else 0
  ret := 0x10000

theorem mmapFirst_mapped {len : UINT64} (pos : 0 < len.toNat) (le : len.toNat ≤ PAGE_SIZE) :
    Mapped oneByteFile (mmapFirst len) where
  succeeded h := absurd h.2 (show ¬ (0x10000 : ADDRINT).toInt ≤ -1 by decide)
  upwards := show toInt32 2 &&& MAP_GROWSDOWN = 0 by decide
  pos := pos
  user := by
    apply inRange_of_toNat_le
    have base : (mmapFirst len).ret.toNat = 0x10000 := rfl
    have pages : wholePages (mmapFirst len).mapLen = (len.toNat + 4095) / 4096 * 4096 := rfl
    have page : PAGE_SIZE = 4096 := rfl
    omega
  aligned := rfl
  labels := by
    have offset : (mmapFirst len).mapOffset = 0 := rfl
    have page : PAGE_SIZE = 4096 := rfl
    have length : (mmapFirst len).mapLen = len.toNat := rfl
    omega
  file _ := ⟨show 0 ≤ (toInt32 3).toInt by decide, Nat.zero_le _⟩

theorem mmapFirst_room {len : UINT64} (le : len.toNat ≤ PAGE_SIZE) (start : UINT64) :
    Shadow.new.RoomFor (labelSets start (mmapFirst len).mapLen) := by
  apply Shadow.RoomFor.of_length_le Shadow.new_sound
  have one : Shadow.new.sets.gSets.length = 1 := rfl
  have length : (mmapFirst len).mapLen = len.toNat := rfl
  have page : PAGE_SIZE = 4096 := rfl
  have ids : idSpace = 2 ^ 32 := rfl
  omega

/-- Two bytes of a file of one byte are mapped with their offsets. -/
theorem mmap_paints_range_two : ∃ t,
    postMmapHook oneByteFile true {3} (mmapFirst 2) Shadow.new = .ok (.returned, t) ∧
      ∀ i < 2, t.labelsOf (.mem (byteAt 0x10000 i)) = {i} := by
  have mapped : Mapped oneByteFile (mmapFirst 2) := mmapFirst_mapped (by decide) (by decide)
  have file : (mmapFirst 2).Backed ∧ (mmapFirst 2).mapOffset ≤
      (oneByteFile.fileSize (mmapFirst 2).mapFd).toNat % 2 ^ 32 := by decide
  have tracked : 0 ≤ (mmapFirst 2).mapFd.toInt ∧ (mmapFirst 2).mapFd ∈ ({3} : Finset INT32) := by
    decide
  obtain ⟨t, run, bytes⟩ := mmap_paints_range mapped Shadow.new_sound (fun _ _ => file)
    fun _ _ => mmapFirst_room (by decide) _
  refine ⟨t, run, fun i hi => (bytes i hi).trans ?_⟩
  rw [if_pos tracked]
  exact congrArg _ (Nat.zero_add i)

/-- The second byte of a mapping of a file of one byte does not stay empty. -/
theorem mmap_labels_past_end :
    ¬ ∀ (os : KernelView) (fdset : Finset INT32) (ctx : SyscallCtx) (s : Shadow), Mapped os ctx →
      s.Sound → (ctx.mapFd ∈ fdset → ∀ start ∈ mmapStart os true ctx,
        s.RoomFor (labelSets start ctx.mapLen)) → s.LabelsMapping os fdset ctx := by
  intro claim
  have mapped : Mapped oneByteFile (mmapFirst 2) := mmapFirst_mapped (by decide) (by decide)
  have room : (mmapFirst 2).mapFd ∈ ({3} : Finset INT32) → ∀ start ∈ mmapStart oneByteFile true
      (mmapFirst 2), Shadow.new.RoomFor (labelSets start (mmapFirst 2).mapLen) :=
    fun _ start _ => mmapFirst_room (by decide) start
  have labels := claim oneByteFile {3} (mmapFirst 2) Shadow.new mapped Shadow.new_sound room
  have whole := (labelsMapping_iff mapped Shadow.new_sound room).mp labels
  exact absurd (whole.file (by decide) (by decide)).2.1 (by decide)

end LibdftDr
