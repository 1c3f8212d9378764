import LibdftDr.Syscall.Mappings
import LibdftDr.Syscall.Reads

/-!
# The labels that a mapping and a read paint

`pread64` labels each byte with its own file offset. `post_mmap_hook` counts from the position of
the descriptor under `mmap_type` 0 and from the offset of the mapping, or from 0, under 1, and its
first byte is the last one of the pages when the mapping grows downwards. The two agree on the
bytes of the file exactly when the count starts at the offset of the first byte painted.
-/
namespace LibdftDr
open Library Library.Action

/-- The label of a file offset. -/
def ownLabel (offset : ℕ) : ℕ := offset % 2 ^ 32

/-- Each byte of the file that the hook paints carries the label of its own offset. Bytes painted
behind the pages are no bytes of the mapping. -/
def Shadow.PaintsOwnOffsets (s : Shadow) (os : KernelView) (mmapType : Bool)
    (fdset : Finset INT32) (ctx : SyscallCtx) : Prop :=
  ∀ t, postMmapHook os mmapType fdset ctx s = .ok (.returned, t) →
    ∀ i < ctx.mapLen, ∀ j < wholePages ctx.mapLen, byteAt (mmapBuf ctx) i = byteAt ctx.ret j →
      ctx.Backed → ctx.mapOffset + j < (os.fileSize ctx.mapFd).toNat →
        t.labelsOf (.mem (byteAt ctx.ret j)) = {ownLabel (ctx.mapOffset + j)}

/-- The position in the pages of the first byte that is painted. -/
def SyscallCtx.firstPainted (ctx : SyscallCtx) : ℕ :=
  if ctx.GrowsDown then wholePages ctx.mapLen - 1 else 0

/-- Some byte of the file is painted. -/
structure PaintsFile (os : KernelView) (ctx : SyscallCtx) : Prop where
  user : InRange (mmapBuf ctx) ctx.mapLen
  backed : ctx.Backed
  pos : 0 < ctx.mapLen
  inPages : ctx.GrowsDown → ctx.mapLen % PAGE_SIZE ≠ 0
  inFile : ctx.mapOffset + ctx.firstPainted < (os.fileSize ctx.mapFd).toNat

/-- The size of the file is below the offset, both in 32 bits. -/
def SizeWraps (os : KernelView) (ctx : SyscallCtx) : Prop :=
  (os.fileSize ctx.mapFd).toNat % 2 ^ 32 < ctx.mapOffset % 2 ^ 32

/-- The hook counts from the offset of the first byte painted, or dies: the position happens to be
that offset, or the offset is taken and the mapping grows upwards. -/
def CountsFromOffset (os : KernelView) (mmapType : Bool) (ctx : SyscallCtx) : Prop :=
  (mmapType = false ∧
    ownLabel (os.seekCur ctx.mapFd).toNat = ownLabel (ctx.mapOffset + ctx.firstPainted)) ∨
  (mmapType = true ∧ ¬ SizeWraps os ctx ∧ ¬ ctx.GrowsDown) ∨
  (mmapType = true ∧ SizeWraps os ctx ∧
    ¬ (os.pread64 ctx.mapFd = 4 ∧ os.sameStart ctx.mapFd (mmapBuf ctx) = true))

section Mapped

variable {os : KernelView} {mmapType : Bool} {fdset : Finset INT32} {ctx : SyscallCtx}
  {s t : Shadow} {start : UINT64}

theorem mmapStart_wraps (wraps : SizeWraps os ctx) : mmapStart os true ctx =
    if os.pread64 ctx.mapFd = 4 ∧ os.sameStart ctx.mapFd (mmapBuf ctx) = true then some 0
    else none := by
  have test : ((os.fileSize ctx.mapFd).setWidth 32 : UINT32) < (ctx.arg 5).setWidth 32 := by
    rw [BitVec.lt_def, BitVec.toNat_setWidth, BitVec.toNat_setWidth]
    exact wraps
  rw [mmapStart]
  simp only [Bool.true_eq_false, if_false]
  exact if_pos test

theorem mmapStart_of_not_wraps (wraps : ¬ SizeWraps os ctx) :
    mmapStart os true ctx = some (ctx.arg 5) := by
  have test : ¬ ((os.fileSize ctx.mapFd).setWidth 32 : UINT32) < (ctx.arg 5).setWidth 32 := by
    rw [BitVec.lt_def, BitVec.toNat_setWidth, BitVec.toNat_setWidth]
    exact wraps
  rw [mmapStart]
  simp only [Bool.true_eq_false, if_false]
  exact if_neg test

/-- Which byte of the pages is painted as the `i`th. -/
theorem HasMapped.painted_iff (h : HasMapped ctx) {i j : ℕ} (hi : i < ctx.mapLen)
    (hj : j < wholePages ctx.mapLen) : byteAt (mmapBuf ctx) i = byteAt ctx.ret j ↔
      j = ctx.firstPainted + i ∧ (ctx.GrowsDown → ctx.mapLen % PAGE_SIZE ≠ 0) := by
  have pos : 0 < ctx.mapLen := by omega
  have user := h.le_user pos
  have le := le_wholePages ctx.mapLen
  have growth := h.growth_eq pos
  have page : PAGE_SIZE = 4096 := rfl
  have at_iff : ∀ k < 2 ^ 64, byteAt ctx.ret k = byteAt ctx.ret j ↔ k = j := fun k hk =>
    ⟨Place.byteAt_inj hk (by omega), fun e => e ▸ rfl⟩
  by_cases down : ctx.GrowsDown
  · have bound : ctx.growth + i < 2 ^ 64 := by
      split_ifs at growth <;> omega
    rw [h.byteAt_mmapBuf pos down, at_iff _ bound, SyscallCtx.firstPainted, if_pos down]
    by_cases aligned : ctx.mapLen % PAGE_SIZE = 0
    · rw [if_pos aligned] at growth
      simp only [down, aligned, true_implies, ne_eq, not_true_eq_false, and_false, iff_false]
      omega
    · rw [if_neg aligned] at growth
      simp only [ne_eq, aligned, not_false_eq_true, implies_true, and_true]
      omega
  · rw [mmapBuf_of_not_growsDown down, at_iff _ (by omega), SyscallCtx.firstPainted, if_neg down]
    simp only [down, false_implies, and_true]
    omega

/-- Once the painted labels are known, it is the start of the count that decides. -/
theorem HasMapped.labels_iff (h : HasMapped ctx) (user : InRange (mmapBuf ctx) ctx.mapLen) :
    (∀ i < ctx.mapLen, ∀ j < wholePages ctx.mapLen, byteAt (mmapBuf ctx) i = byteAt ctx.ret j →
      ctx.Backed → ctx.mapOffset + j < (os.fileSize ctx.mapFd).toNat →
        (offsetLabel start i).toNat = ownLabel (ctx.mapOffset + j)) ↔
      (PaintsFile os ctx →
        ownLabel start.toNat = ownLabel (ctx.mapOffset + ctx.firstPainted)) := by
  have le := le_wholePages ctx.mapLen
  constructor
  · intro labels paints
    have pos := paints.pos
    have first : ctx.firstPainted < wholePages ctx.mapLen := by
      unfold SyscallCtx.firstPainted
      split_ifs <;> omega
    have painted := (h.painted_iff pos first).mpr ⟨rfl, paints.inPages⟩
    have label := labels 0 pos _ first painted paints.backed paints.inFile
    rwa [offsetLabel_toNat] at label
  · intro counts i hi j hj painted backed inFile
    obtain ⟨rfl, inPages⟩ := (h.painted_iff hi hj).mp painted
    have start := counts ⟨user, backed, by omega, inPages, by omega⟩
    simp only [ownLabel] at start ⊢
    rw [offsetLabel_toNat]
    omega

/-- Downwards, the first byte that is painted is the last of a page. -/
theorem firstPainted_mod (pos : 0 < ctx.mapLen) (down : ctx.GrowsDown) :
    ctx.firstPainted % 4096 = 4095 := by
  have le := le_wholePages ctx.mapLen
  have pages : wholePages ctx.mapLen % 4096 = 0 := Nat.mul_mod_left _ _
  rw [SyscallCtx.firstPainted, if_pos down]
  omega

/-- The start of the count is right in the cases of `CountsFromOffset` only. -/
theorem counts_iff (aligned : ctx.mapOffset % PAGE_SIZE = 0) (pos : 0 < ctx.mapLen)
    (hs : mmapStart os mmapType ctx = some start) :
    ownLabel start.toNat = ownLabel (ctx.mapOffset + ctx.firstPainted) ↔
      CountsFromOffset os mmapType ctx := by
  rw [show PAGE_SIZE = 4096 from rfl] at aligned
  have down := firstPainted_mod pos
  have up : ¬ ctx.GrowsDown → ctx.firstPainted = 0 := fun up => if_neg up
  unfold CountsFromOffset
  cases mmapType with
  | false =>
    cases hs
    simp [SyscallCtx.mapFd]
  | true =>
    by_cases wraps : SizeWraps os ctx
    · rw [mmapStart_wraps wraps] at hs
      split_ifs at hs with same
      cases hs
      have zero : (0 : UINT64).toNat = 0 := rfl
      simp only [same, wraps, and_self, not_true_eq_false, and_false, false_and, or_false,
        Bool.true_eq_false, iff_false, ownLabel, zero]
      unfold SizeWraps at wraps
      by_cases grows : ctx.GrowsDown
      · have := down grows
        omega
      · have := up grows
        omega
    · rw [mmapStart_of_not_wraps wraps] at hs
      cases hs
      have offset : (ctx.arg 5).toNat = ctx.mapOffset := rfl
      simp only [wraps, not_false_eq_true, true_and, false_and, or_false, false_or,
        Bool.true_eq_false, ownLabel, offset]
      by_cases grows : ctx.GrowsDown
      · have := down grows
        simp only [grows, not_true_eq_false, iff_false]
        omega
      · simp [grows, up grows]

/-- Without a start of the count the hook dies, and that is one of the cases. -/
theorem countsFromOffset_of_none (hs : mmapStart os mmapType ctx = none) :
    CountsFromOffset os mmapType ctx := by
  cases mmapType with
  | false => cases hs
  | true =>
    by_cases wraps : SizeWraps os ctx
    · rw [mmapStart_wraps wraps] at hs
      split_ifs at hs with same
      exact .inr (.inr ⟨rfl, wraps, same⟩)
    · cases (mmapStart_of_not_wraps wraps).symm.trans hs

/-- Painting own offsets, in the state that the hook leaves. -/
theorem paintsOwnOffsets_iff_of_run {fdset : Finset INT32} {s t : Shadow}
    (run : postMmapHook os mmapType fdset ctx s = .ok (.returned, t))
    (filled : s.Filled t (mmapBuf ctx) (some start) ctx.mapLen) :
    s.PaintsOwnOffsets os mmapType fdset ctx ↔
      ∀ i < ctx.mapLen, ∀ j < wholePages ctx.mapLen,
        byteAt (mmapBuf ctx) i = byteAt ctx.ret j → ctx.Backed →
        ctx.mapOffset + j < (os.fileSize ctx.mapFd).toNat →
          (offsetLabel start i).toNat = ownLabel (ctx.mapOffset + j) := by
  constructor
  · intro own i hi j hj here backed inFile
    have label := own t run i hi j hj here backed inFile
    rw [← here, filled.bytes i hi] at label
    exact Finset.singleton_injective label
  · intro own t' run' i hi j hj here backed inFile
    cases run.symm.trans run'
    rw [← here, filled.bytes i hi]
    exact congrArg (singleton : ℕ → Finset ℕ) (own i hi j hj here backed inFile)

end Mapped

/-- A `pread64` that has read into its buffer. -/
structure HasPread (ctx : SyscallCtx) : Prop where
  succeeded : 0 ≤ ctx.ret.toInt
  count : ctx.ret.toNat < 2 ^ 32
  user : InRange (ctx.arg 1) ctx.ret.toNat

/-- `pread64` of a tracked descriptor paints each byte with the label of its own offset. -/
theorem HasPread.paints {os : KernelView} {fdset : Finset INT32} {ctx : SyscallCtx} {s : Shadow}
    (h : HasPread ctx) (tracked : ctx.Tracked fdset) (sound : s.Sound)
    (room : s.RoomFor (labelSets (ctx.arg 3) ctx.ret.toNat)) :
    ∃ t, PostHook.pread64.run os fdset ctx s = .ok (.returned, t) ∧
      ∀ k < ctx.ret.toNat, t.labelsOf (.mem (byteAt (ctx.arg 1) k)) =
        {ownLabel ((ctx.arg 3).toNat + k)} := by
  obtain ⟨t, run, -, -, painted⟩ := paintBytes_run sound h.user room
  have narrow : (ctx.ret.setWidth 32 : UINT32).toNat = ctx.ret.toNat := by
    rw [BitVec.toNat_setWidth]
    exact Nat.mod_eq_of_lt h.count
  have fd : toInt32 (ctx.arg 0) ∈ fdset := tracked
  refine ⟨t, ?_, fun k hk => ?_⟩
  · simp only [PostHook.run, postPread64Hook, if_neg (not_lt.mpr h.succeeded), if_pos fd, narrow]
    rw [bind_of_ok run]
    rfl
  · rw [painted.bytes k hk, offsetLabel_toNat, ownLabel]

/-- For a tracked descriptor and either `mmap_type`, the bytes of the file that `mmap` paints carry
the labels of their own offsets, which are those that `pread64` paints, if and only if it paints
none or counts from the offset of the first one it paints. -/
theorem mmap_paints_own_offsets_iff {os : KernelView} {mmapType : Bool} {fdset : Finset INT32}
    {ctx : SyscallCtx} {s : Shadow} (h : HasMapped ctx) (sound : s.Sound)
    (aligned : ctx.mapOffset % PAGE_SIZE = 0)
    (tracked : 0 ≤ ctx.mapFd.toInt ∧ ctx.mapFd ∈ fdset)
    (room : ∀ start ∈ mmapStart os mmapType ctx, s.RoomFor (labelSets start ctx.mapLen)) :
    (s.PaintsOwnOffsets os mmapType fdset ctx ↔
      (PaintsFile os ctx → CountsFromOffset os mmapType ctx)) ∧
    ∀ (c : SyscallCtx) (u : Shadow), HasPread c → c.Tracked fdset → u.Sound →
      u.RoomFor (labelSets (c.arg 3) c.ret.toNat) →
      ∃ t, PostHook.pread64.run os fdset c u = .ok (.returned, t) ∧
        ∀ k < c.ret.toNat, t.labelsOf (.mem (byteAt (c.arg 1) k)) =
          {ownLabel ((c.arg 3).toNat + k)} := by
  refine ⟨?_, fun c u read fd sound' room' => read.paints fd sound' room'⟩
  have fill : mmapFill os mmapType fdset ctx = (mmapStart os mmapType ctx).map some :=
    if_pos tracked
  cases hs : mmapStart os mmapType ctx with
  | none =>
    rw [hs] at fill
    refine iff_of_true (fun t run => ?_) fun _ => ?_
    · cases (postMmapHook_dies h fill).symm.trans run
    · exact countsFromOffset_of_none hs
  | some start =>
    rw [hs] at fill
    by_cases user : InRange (mmapBuf ctx) ctx.mapLen
    · have room' : ∀ offset ∈ some start, s.RoomFor (labelSets offset ctx.mapLen) := by
        rintro offset ⟨⟩
        exact room start hs
      obtain ⟨t, run, filled⟩ := postMmapHook_filled h sound fill (fun _ => user) room'
      rw [paintsOwnOffsets_iff_of_run run filled, h.labels_iff user]
      exact imp_congr_right fun paints => counts_iff aligned paints.pos hs
    · refine iff_of_true (fun t run => ?_) fun paints => absurd paints.user user
      exact absurd (postMmapHook_faults h sound fill run rfl) user

/-- A file of two pages whose descriptors stand at `position`. -/
def twoPagesAt (position : UINT64) : KernelView :=
  { noKernel with statSize := fun _ => some 8192, seekCur := fun _ => position }

/-- A private mapping of two bytes of the second page of descriptor 3. -/
def mmapSecond : SyscallCtx where
  arg i := if i.val = 1 then 2 else if i.val = 3 then 2 else if i.val = 4 then 3 else
    if i.val = 5 then 4096 else 0
  ret := 0x10000

theorem mmapSecond_hasMapped : HasMapped mmapSecond where
  succeeded h := absurd h.2 (show ¬ (0x10000 : ADDRINT).toInt ≤ -1 by decide)
  pages := inRange_of_toNat_le (by decide)

theorem mmapSecond_paints (position : UINT64) : PaintsFile (twoPagesAt position) mmapSecond where
  user := inRange_of_toNat_le (by decide)
  backed := by decide
  pos := by decide
  inPages := by decide
  inFile := show mmapSecond.mapOffset + mmapSecond.firstPainted < 8192 by decide

theorem mmapSecond_room (start : UINT64) :
    Shadow.new.RoomFor (labelSets start mmapSecond.mapLen) :=
  Shadow.RoomFor.of_length_le Shadow.new_sound (by decide) start

/-- Mapping the second page labels it with the offsets of the file under `mmap_type` 1, and under
0 if the descriptor stands there but not if it stands at the start. -/
theorem mmap_paints_own_offsets_iff_second :
    Shadow.new.PaintsOwnOffsets (twoPagesAt 0) true {3} mmapSecond ∧
      Shadow.new.PaintsOwnOffsets (twoPagesAt 4096) false {3} mmapSecond ∧
        ¬ Shadow.new.PaintsOwnOffsets (twoPagesAt 0) false {3} mmapSecond := by
  have own : ∀ position mmapType,
      Shadow.new.PaintsOwnOffsets (twoPagesAt position) mmapType {3} mmapSecond ↔
        CountsFromOffset (twoPagesAt position) mmapType mmapSecond := by
    intro position mmapType
    rw [(mmap_paints_own_offsets_iff mmapSecond_hasMapped Shadow.new_sound rfl
      ⟨by decide, by decide⟩ fun start _ => mmapSecond_room start).1]
    exact ⟨fun h => h (mmapSecond_paints position), fun h _ => h⟩
  refine ⟨(own 0 true).mpr (.inr (.inl ⟨rfl, ?_, by decide⟩)),
    (own 4096 false).mpr (.inl ⟨rfl, rfl⟩), fun paints => ?_⟩
  · exact show ¬ 8192 % 2 ^ 32 < mmapSecond.mapOffset % 2 ^ 32 by decide
  · obtain ⟨-, same⟩ | ⟨⟨⟩, -⟩ | ⟨⟨⟩, -⟩ := (own 0 false).mp paints
    exact absurd same (show ¬ ownLabel 0 = ownLabel (4096 + 0) by decide)

/-- Under `mmap_type` 0 the first byte of the second page gets label 0. -/
theorem mmap_paints_other_offset :
    ¬ ∀ (os : KernelView) (mmapType : Bool) (fdset : Finset INT32) (ctx : SyscallCtx) (s : Shadow),
      HasMapped ctx → s.Sound → ctx.mapOffset % PAGE_SIZE = 0 →
      (0 ≤ ctx.mapFd.toInt ∧ ctx.mapFd ∈ fdset) →
      (∀ start ∈ mmapStart os mmapType ctx, s.RoomFor (labelSets start ctx.mapLen)) →
        s.PaintsOwnOffsets os mmapType fdset ctx := by
  intro claim
  have own := claim (twoPagesAt 0) false {3} mmapSecond Shadow.new mmapSecond_hasMapped
    Shadow.new_sound rfl ⟨by decide, by decide⟩ fun start _ => mmapSecond_room start
  have fills : mmapFill (twoPagesAt 0) false {3} mmapSecond = some (some 0) := rfl
  obtain ⟨t, run, filled⟩ := postMmapHook_filled mmapSecond_hasMapped Shadow.new_sound fills
    (fun _ => (mmapSecond_paints 0).user) fun start _ => mmapSecond_room start
  have label := own t run 0 (by decide) 0 (by decide) rfl (by decide)
    (show 4096 + 0 < 8192 by decide)
  have painted := filled.bytes 0 (by decide)
  exact absurd (painted.symm.trans label) (by decide)

end LibdftDr
