import LibdftDr.Core.Places
import LibdftDr.Syscall.Mmap

/-!
# Where mapping and unmapping write

The kernel maps and unmaps whole pages. `post_munmap_hook` clears the bytes of the length it was
given and leaves the rest of the last page as it was. `post_mmap_hook` fills as many bytes from
the result on, but under `MAP_GROWSDOWN` from the last byte of the pages on: the mapping keeps its
old tags, and those of the memory after it are lost.
-/
namespace LibdftDr
open Library Library.Action

/-! ## Unmapping -/

/-- The pages are empty afterwards and the rest is as before. -/
def Shadow.Unmaps (s : Shadow) (ctx : SyscallCtx) : Prop :=
  ∃ t, postMunmapHook ctx s = .ok (⟨⟩, t) ∧
    (∀ i < wholePages ctx.mapLen, t.cell (.mem (byteAt (ctx.arg 0) i)) = clearedVal) ∧
    ∀ c ∉ memSpan (ctx.arg 0) (wholePages ctx.mapLen), t.cell c = s.cell c

theorem memSpan_mono {addr : ADDRINT} {m n : ℕ} (h : m ≤ n) : memSpan addr m ⊆ memSpan addr n := by
  rintro c ⟨i, hi, rfl⟩
  exact mem_memSpan_self (by omega)

theorem wholePages_le (n : ℕ) (h : n < 2 ^ 64) : wholePages n ≤ 2 ^ 64 := by
  unfold wholePages PAGE_SIZE
  omega

/-- A successful `munmap` empties its pages and nothing else if and only if the bytes after its
length in the last page are empty already. -/
theorem munmap_empties_pages_iff {ctx : SyscallCtx} {s : Shadow} (succeeded : 0 ≤ ctx.ret.toInt) :
    s.Unmaps ctx ↔ ∀ i, ctx.mapLen ≤ i → i < wholePages ctx.mapLen →
      s.cell (.mem (byteAt (ctx.arg 0) i)) = clearedVal := by
  have fits := wholePages_le ctx.mapLen (ctx.arg 1).isLt
  obtain ⟨dir, run, cleared, kept⟩ := clearBytes_run s (ctx.arg 0) ctx.mapLen
  have hook : postMunmapHook ctx s = .ok (⟨⟩, s.withTagDir dir) := by
    rw [postMunmapHook, if_neg (not_lt.mpr succeeded)]
    exact run
  have tail : ∀ i, ctx.mapLen ≤ i → i < wholePages ctx.mapLen →
      dir.tagAt (byteAt (ctx.arg 0) i) = s.cell (.mem (byteAt (ctx.arg 0) i)) := by
    intro i lo hi
    refine kept _ ?_
    rintro ⟨j, hj, same⟩
    have := Place.byteAt_inj (by omega) (by omega) (Cell.mem.inj same)
    omega
  constructor
  · rintro ⟨t, run', empty, -⟩ i lo hi
    cases hook.symm.trans run'
    exact (tail i lo hi).symm.trans (empty i hi)
  · intro empty
    refine ⟨_, hook, fun i hi => ?_, fun c hc => ?_⟩
    · by_cases lo : ctx.mapLen ≤ i
      · exact (tail i lo hi).trans (empty i lo hi)
      · exact cleared i (by omega)
    · cases c with
      | reg r b => rfl
      | mem a => exact kept a fun inside => hc (memSpan_mono (le_wholePages _) inside)

/-- Unmapping one byte of the page at `0x10000`. -/
def munmapOne : SyscallCtx where
  arg i := if i.val = 0 then 0x10000 else if i.val = 1 then 1 else 0
  ret := 0

/-- The second byte of that page has label 0. -/
def secondTainted : Shadow := Shadow.new.paintByte 0x10001 0

theorem secondTainted_run : paintBytes 0x10001 0 1 Shadow.new = .ok (⟨⟩, secondTainted) := by
  have user : (0x10001 : ADDRINT) ≤ lastAddress := by decide
  have none : paintBytes 0x10001 0 0 Shadow.new = .ok (⟨⟩, Shadow.new) := rfl
  rw [paintBytes, loop_succ_of_ok none]
  exact paintByte_run 0 user

theorem secondTainted_sound : secondTainted.Sound := by
  have flow : Flow Set.univ Set.univ ∅ (InRange 0x10001 1) (fun _ => ∅) (paintBytes 0x10001 0 1) :=
    paintBytes_flow (Set.subset_univ _) (Set.subset_univ _)
  exact (flow.of_ok Shadow.new_sound Shadow.new_sound.within_univ secondTainted_run).2.1

theorem secondTainted_cell : secondTainted.cell (.mem (byteAt 0x10000 1)) ≠ clearedVal := by
  have cell : secondTainted.cell (.mem (byteAt 0x10000 1)) = ⟨1⟩ := by
    change (tagmapSetbWithTag Shadow.new.tagDir 0x10001 ⟨1⟩).tagAt 0x10001 = ⟨1⟩
    rw [tagmapSetbWithTag, TagDir.tagAt_setb, if_pos ⟨rfl, by decide⟩]
  rw [cell]
  decide

/-- The kernel unmaps the page, and the hook leaves its second byte tainted; in a shadow without
tags there is nothing to leave. -/
theorem munmap_empties_pages_iff_one : ¬ secondTainted.Unmaps munmapOne ∧
    Shadow.new.Unmaps munmapOne := by
  have succeeded : 0 ≤ munmapOne.ret.toInt := by decide
  refine ⟨fun unmaps => ?_, (munmap_empties_pages_iff succeeded).mpr fun i _ _ => ?_⟩
  · have tail := (munmap_empties_pages_iff succeeded).mp unmaps
    exact secondTainted_cell (tail 1 (by decide) (by decide))
  · exact TagDir.tagAt_new _

/-- Not every successful `munmap` empties its pages. -/
theorem munmap_leaves_tail : ¬ ∀ (ctx : SyscallCtx) (s : Shadow), 0 ≤ ctx.ret.toInt →
    (ctx.arg 0).toNat % PAGE_SIZE = 0 → 0 < ctx.mapLen → s.Sound → s.Unmaps ctx := by
  intro claim
  obtain ⟨t, run, empty, -⟩ := claim munmapOne secondTainted (by decide) (by decide) (by decide)
    secondTainted_sound
  obtain ⟨dir, run', -, kept⟩ := clearBytes_run secondTainted 0x10000 1
  cases (show clearBytes 0x10000 1 secondTainted = .ok (⟨⟩, t) from run).symm.trans run'
  refine secondTainted_cell ((kept (byteAt 0x10000 1) ?_).symm.trans (empty 1 (by decide)))
  rintro ⟨j, hj, same⟩
  have := Place.byteAt_inj (by decide) (by omega) (Cell.mem.inj same)
  omega

/-! ## Mapping -/

/-- A call that has mapped its pages, upwards or downwards. -/
structure HasMapped (ctx : SyscallCtx) : Prop where
  succeeded : ¬ ctx.Failed
  pages : InRange ctx.ret (wholePages ctx.mapLen)

/-- What the hook fills the mapping with, if it does not die. -/
def mmapFill (os : KernelView) (mmapType : Bool) (fdset : Finset INT32) (ctx : SyscallCtx) :
    Option (Option UINT64) :=
  if 0 ≤ ctx.mapFd.toInt ∧ ctx.mapFd ∈ fdset then (mmapStart os mmapType ctx).map some
  else some none

namespace SyscallCtx

variable (ctx : SyscallCtx)

def GrowsDown : Prop := toInt32 (ctx.arg 3) &&& MAP_GROWSDOWN ≠ 0

instance : Decidable ctx.GrowsDown := inferInstanceAs (Decidable (_ ≠ _))

/-- How far the hook moves its buffer under `MAP_GROWSDOWN`. -/
def growth : ℕ := (mmapOffset (ctx.arg 1)).toNat - 1

end SyscallCtx

section Mapped

variable {os : KernelView} {mmapType : Bool} {fdset : Finset INT32} {ctx : SyscallCtx}
  {s t : Shadow}

theorem HasMapped.ne (h : HasMapped ctx) : ctx.ret ≠ -1 := ctx.ret_ne_of_not_failed h.succeeded

theorem postMmapHook_dies (h : HasMapped ctx) (dies : mmapFill os mmapType fdset ctx = none) :
    postMmapHook os mmapType fdset ctx s = .ok (.died, s) := by
  unfold mmapFill at dies
  split_ifs at dies with tracked
  rw [SyscallCtx.mapFd] at tracked
  simp only [postMmapHook, if_neg h.ne, if_pos tracked, Option.map_eq_none_iff.mp dies]
  rfl

theorem postMmapHook_fills (h : HasMapped ctx) {start : Option UINT64}
    (fills : mmapFill os mmapType fdset ctx = some start) :
    postMmapHook os mmapType fdset ctx s =
      (do fillBytes (mmapBuf ctx) ctx.mapLen start; pure .returned : Engine HookEnd) s := by
  unfold mmapFill at fills
  split_ifs at fills with tracked
  · obtain ⟨offset, hs, rfl⟩ := Option.map_eq_some_iff.mp fills
    rw [SyscallCtx.mapFd] at tracked
    simp only [postMmapHook, if_neg h.ne, if_pos tracked, hs]
    rfl
  · cases fills
    rw [SyscallCtx.mapFd] at tracked
    simp only [postMmapHook, if_neg h.ne, if_neg tracked]
    rfl

theorem HasMapped.le_user (h : HasMapped ctx) (pos : 0 < ctx.mapLen) :
    ctx.ret.toNat + wholePages ctx.mapLen ≤ 2 ^ 47 := by
  have le := le_wholePages ctx.mapLen
  have last : wholePages ctx.mapLen - 1 < wholePages ctx.mapLen := by omega
  have inside := BitVec.le_def.mp (h.pages _ last)
  have user : lastAddress.toNat = 2 ^ 47 - 1 := rfl
  rw [h.pages.successive _ last] at inside
  omega

theorem mmapOffset_toNat {len : UINT64} (h : len.toNat ≤ 2 ^ 47) : (mmapOffset len).toNat =
    if len.toNat < PAGE_SIZE then PAGE_SIZE else len.toNat + PAGE_SIZE - len.toNat % PAGE_SIZE := by
  have page : PAGE_SZ.toNat = 4096 := rfl
  have size : PAGE_SIZE = 4096 := rfl
  by_cases small : len.toNat < PAGE_SIZE
  · rw [if_pos small, mmapOffset, if_pos (BitVec.lt_def.mpr small)]
    rfl
  · have large : ¬ len < PAGE_SZ := fun lt => small (BitVec.lt_def.mp lt)
    rw [if_neg small, mmapOffset, if_neg large, BitVec.toNat_sub, BitVec.toNat_add,
      BitVec.toNat_umod, page, size]
    omega

/-- The buffer is moved past the mapping, to the last byte of its pages or a page further. -/
theorem HasMapped.growth_eq (h : HasMapped ctx) (pos : 0 < ctx.mapLen) :
    ctx.growth =
      wholePages ctx.mapLen - 1 + if ctx.mapLen % PAGE_SIZE = 0 then PAGE_SIZE else 0 := by
  have user := h.le_user pos
  have le := le_wholePages ctx.mapLen
  have len : (ctx.arg 1).toNat = ctx.mapLen := rfl
  have size : (ctx.arg 1).toNat ≤ 2 ^ 47 := by omega
  rw [SyscallCtx.growth, mmapOffset_toNat size, len]
  have page : PAGE_SIZE = 4096 := rfl
  simp only [wholePages, page] at user le ⊢
  by_cases small : ctx.mapLen < 4096 <;> by_cases whole : ctx.mapLen % 4096 = 0 <;>
    simp only [small, whole, if_true, if_false] <;> omega

theorem HasMapped.byteAt_mmapBuf (h : HasMapped ctx) (pos : 0 < ctx.mapLen) (down : ctx.GrowsDown)
    (i : ℕ) : byteAt (mmapBuf ctx) i = byteAt ctx.ret (ctx.growth + i) := by
  have moved : 0 < (mmapOffset (ctx.arg 1)).toNat := by
    have user := h.le_user pos
    have le := le_wholePages ctx.mapLen
    have size : (ctx.arg 1).toNat ≤ 2 ^ 47 := le.trans (by omega)
    have page : PAGE_SIZE = 4096 := rfl
    rw [mmapOffset_toNat size, page]
    split_ifs <;> omega
  have flag : toInt32 (ctx.arg 3) &&& MAP_GROWSDOWN ≠ 0 := down
  have one : (1 : ADDRINT).toNat = 1 := rfl
  rw [mmapBuf, if_pos flag]
  apply BitVec.eq_of_toNat_eq
  simp only [byteAt, SyscallCtx.growth, BitVec.toNat_sub, BitVec.toNat_add, BitVec.toNat_ofNat, one]
  omega

theorem mmapBuf_of_not_growsDown (up : ¬ ctx.GrowsDown) : mmapBuf ctx = ctx.ret := by
  have flag : ¬ toInt32 (ctx.arg 3) &&& MAP_GROWSDOWN ≠ 0 := up
  rw [mmapBuf, if_neg flag]

/-- Under `MAP_GROWSDOWN` no byte of the mapping is filled. -/
theorem HasMapped.not_mem_moved (h : HasMapped ctx) (down : ctx.GrowsDown) {i : ℕ}
    (hi : i < ctx.mapLen) : Cell.mem (byteAt ctx.ret i) ∉ memSpan (mmapBuf ctx) ctx.mapLen := by
  rintro ⟨j, hj, same⟩
  have pos : 0 < ctx.mapLen := by omega
  have user := h.le_user pos
  have le := le_wholePages ctx.mapLen
  have growth := h.growth_eq pos
  have page : PAGE_SIZE = 4096 := rfl
  rw [h.byteAt_mmapBuf pos down] at same
  have whole : ctx.mapLen % PAGE_SIZE ≠ 0 → ctx.mapLen < wholePages ctx.mapLen := by
    simp only [wholePages, page]
    omega
  split_ifs at growth with aligned
  · have := Place.byteAt_inj (by omega) (by omega) (Cell.mem.inj same)
    omega
  · have := whole aligned
    have := Place.byteAt_inj (by omega) (by omega) (Cell.mem.inj same)
    omega

/-- The mapped pages are all that changes, and each byte of the mapping ends empty or with the
label it is to have. -/
def Shadow.KeepsToPages (s : Shadow) (os : KernelView) (mmapType : Bool) (fdset : Finset INT32)
    (ctx : SyscallCtx) : Prop :=
  ∃ e t, postMmapHook os mmapType fdset ctx s = .ok (e, t) ∧ (e = .returned →
    (∀ c ∉ memSpan ctx.ret (wholePages ctx.mapLen), t.cell c = s.cell c) ∧
    ∀ i < ctx.mapLen, t.labelsOf (.mem (byteAt ctx.ret i)) = ∅ ∨ ∃ start,
      mmapFill os mmapType fdset ctx = some start ∧
        t.labelsOf (.mem (byteAt ctx.ret i)) = fillLabels start i)

/-- What filling the moved buffer would not change: the mapping is as it should be already, and
so is the memory after its pages that the hook takes for the mapping. -/
structure Shadow.HadFill (s : Shadow) (ctx : SyscallCtx) (start : Option UINT64) : Prop where
  user : start.isSome → InRange (mmapBuf ctx) ctx.mapLen
  mapping : ∀ i < ctx.mapLen, s.labelsOf (.mem (byteAt ctx.ret i)) = ∅ ∨
    s.labelsOf (.mem (byteAt ctx.ret i)) = fillLabels start i
  beyond : ∀ i < ctx.mapLen,
    Cell.mem (byteAt (mmapBuf ctx) i) ∉ memSpan ctx.ret (wholePages ctx.mapLen) →
      s.labelsOf (.mem (byteAt (mmapBuf ctx) i)) = fillLabels start i

/-- Painting past user memory faults. -/
theorem postMmapHook_faults (h : HasMapped ctx) (sound : s.Sound) {start : Option UINT64}
    (fills : mmapFill os mmapType fdset ctx = some start) {e : HookEnd}
    (run : postMmapHook os mmapType fdset ctx s = .ok (e, t)) :
    start.isSome → InRange (mmapBuf ctx) ctx.mapLen := by
  intro some
  obtain ⟨offset, rfl⟩ := Option.isSome_iff_exists.mp some
  rw [postMmapHook_fills h fills, bind_eq_ok] at run
  obtain ⟨_, u, painted, -⟩ := run
  have flow : Flow Set.univ Set.univ ∅ (InRange (mmapBuf ctx) ctx.mapLen) (fun _ => ∅)
      (paintBytes (mmapBuf ctx) offset ctx.mapLen) :=
    paintBytes_flow (Set.subset_univ _) (Set.subset_univ _)
  exact (flow.of_ok sound sound.within_univ painted).1

/-- When the hook fills the mapping, and the memory is there, it returns with the mapping filled. -/
theorem postMmapHook_filled (h : HasMapped ctx) (sound : s.Sound) {start : Option UINT64}
    (fills : mmapFill os mmapType fdset ctx = some start)
    (inRange : start.isSome → InRange (mmapBuf ctx) ctx.mapLen)
    (room : ∀ offset ∈ start, s.RoomFor (labelSets offset ctx.mapLen)) :
    ∃ t, postMmapHook os mmapType fdset ctx s = .ok (.returned, t) ∧
      s.Filled t (mmapBuf ctx) start ctx.mapLen := by
  obtain ⟨t, run, filled⟩ := fillBytes_run sound inRange room
  refine ⟨t, ?_, filled⟩
  rw [postMmapHook_fills h fills, bind_of_ok run]
  rfl

/-- Keeping to the pages, in the state that the hook leaves. -/
theorem keepsToPages_iff_of_run {start : Option UINT64}
    (fills : mmapFill os mmapType fdset ctx = some start)
    (run : postMmapHook os mmapType fdset ctx s = .ok (.returned, t)) :
    s.KeepsToPages os mmapType fdset ctx ↔
      (∀ c ∉ memSpan ctx.ret (wholePages ctx.mapLen), t.cell c = s.cell c) ∧
      ∀ i < ctx.mapLen, t.labelsOf (.mem (byteAt ctx.ret i)) = ∅ ∨
        t.labelsOf (.mem (byteAt ctx.ret i)) = fillLabels start i := by
  constructor
  · rintro ⟨e, t', run', keeps⟩
    cases run.symm.trans run'
    simpa [fills] using keeps rfl
  · intro keeps
    exact ⟨.returned, t, run, fun _ => by simpa [fills] using keeps⟩

theorem Shadow.Filled.keeps_iff {start : Option UINT64} (filled : s.Filled t (mmapBuf ctx) start
    ctx.mapLen) : (∀ c ∉ memSpan ctx.ret (wholePages ctx.mapLen), t.cell c = s.cell c) ↔
      ∀ i < ctx.mapLen,
        Cell.mem (byteAt (mmapBuf ctx) i) ∉ memSpan ctx.ret (wholePages ctx.mapLen) →
          s.labelsOf (.mem (byteAt (mmapBuf ctx) i)) = fillLabels start i := by
  constructor
  · intro frame i hi outside
    rw [← filled.bytes i hi, (filled.kept_iff _).mp (frame _ outside)]
  · intro beyond c outside
    by_cases inside : c ∈ memSpan (mmapBuf ctx) ctx.mapLen
    · obtain ⟨i, hi, rfl⟩ := inside
      rw [filled.kept_iff, filled.bytes i hi, beyond i hi outside]
    · exact filled.le.frame c inside

end Mapped

/-- A successful `mmap` changes the tags of its pages only and leaves no old tag in the mapping,
unless it has `MAP_GROWSDOWN`; then this holds if and only if the hook dies or filling the memory
behind the mapping in its stead makes no difference. -/
theorem mmap_keeps_to_pages_iff {os : KernelView} {mmapType : Bool} {fdset : Finset INT32}
    {ctx : SyscallCtx} {s : Shadow} (h : HasMapped ctx) (sound : s.Sound)
    (room : ∀ start, mmapFill os mmapType fdset ctx = some (some start) →
      s.RoomFor (labelSets start ctx.mapLen)) :
    s.KeepsToPages os mmapType fdset ctx ↔
      (ctx.GrowsDown → ∀ start, mmapFill os mmapType fdset ctx = some start →
        s.HadFill ctx start) := by
  cases fills : mmapFill os mmapType fdset ctx with
  | none => exact iff_of_true ⟨.died, s, postMmapHook_dies h fills, by simp⟩ (by simp)
  | some start =>
    by_cases inRange : start.isSome → InRange (mmapBuf ctx) ctx.mapLen
    · obtain ⟨t, run, filled⟩ := postMmapHook_filled h sound fills inRange
        fun offset ho => room offset (fills.trans (congrArg some ho))
      rw [keepsToPages_iff_of_run fills run]
      by_cases down : ctx.GrowsDown
      · have same : ∀ i < ctx.mapLen, t.labelsOf (.mem (byteAt ctx.ret i)) =
            s.labelsOf (.mem (byteAt ctx.ret i)) :=
          fun i hi => filled.le.labelsOf_eq sound (h.not_mem_moved down hi)
        rw [filled.keeps_iff]
        constructor
        · rintro ⟨beyond, mapping⟩ - start' ⟨⟩
          exact ⟨inRange, fun i hi => same i hi ▸ mapping i hi, beyond⟩
        · intro had
          obtain ⟨-, mapping, beyond⟩ := had down start rfl
          exact ⟨beyond, fun i hi => by rw [same i hi]; exact mapping i hi⟩
      · have base := mmapBuf_of_not_growsDown down
        rw [base] at filled
        refine iff_of_true ⟨fun c outside => ?_, fun i hi => .inr (filled.bytes i hi)⟩
          fun yes => absurd yes down
        exact filled.le.frame c fun inside => outside (memSpan_mono (le_wholePages _) inside)
    · refine iff_of_false ?_ fun had => ?_
      · rintro ⟨e, t, run, -⟩
        exact inRange (postMmapHook_faults h sound fills run)
      · by_cases down : ctx.GrowsDown
        · exact inRange (had down start rfl).user
        · rw [mmapBuf_of_not_growsDown down] at inRange
          exact inRange fun _ i hi => h.pages i (hi.trans_le (le_wholePages _))

/-- Anonymous memory that grows downwards, of two bytes at `0x10000`. -/
def mmapDown : SyscallCtx where
  arg i := if i.val = 1 then 2 else if i.val = 3 then 0x122 else if i.val = 4 then -1 else 0
  ret := 0x10000

theorem mmapDown_hasMapped : HasMapped mmapDown where
  succeeded h := absurd h.2 (show ¬ (0x10000 : ADDRINT).toInt ≤ -1 by decide)
  pages := inRange_of_toNat_le (by decide)

theorem mmapDown_fills : mmapFill noKernel true ∅ mmapDown = some none := rfl

theorem secondTainted_labels : secondTainted.labelsOf (.mem (byteAt mmapDown.ret 1)) ≠ ∅ :=
  fun empty => secondTainted_cell ((secondTainted_sound.labelsOf_eq_empty _).mp empty)

/-- Mapping downwards is right in a shadow without tags, and wrong over an old tag. -/
theorem mmap_keeps_to_pages_iff_down : Shadow.new.KeepsToPages noKernel true ∅ mmapDown ∧
    ¬ secondTainted.KeepsToPages noKernel true ∅ mmapDown := by
  have room : ∀ (s : Shadow) start, mmapFill noKernel true ∅ mmapDown = some (some start) →
      s.RoomFor (labelSets start mmapDown.mapLen) := by
    rintro s start ⟨⟩
  have clean : ∀ a, Shadow.new.labelsOf (.mem a) = ∅ := fun a =>
    (Shadow.new_sound.labelsOf_eq_empty _).mpr (TagDir.tagAt_new a)
  constructor
  · refine (mmap_keeps_to_pages_iff mmapDown_hasMapped Shadow.new_sound (room _)).mpr ?_
    rintro - start ⟨⟩
    exact ⟨by simp, fun i _ => .inl (clean _), fun i _ _ => clean _⟩
  · intro keeps
    have had := (mmap_keeps_to_pages_iff mmapDown_hasMapped secondTainted_sound (room _)).mp keeps
      (by decide) none mmapDown_fills
    obtain empty | empty := had.mapping 1 (by decide)
    · exact secondTainted_labels empty
    · exact secondTainted_labels empty

/-- A mapping that grows downwards keeps an old tag. -/
theorem mmap_keeps_old_tag :
    ¬ ∀ (os : KernelView) (mmapType : Bool) (fdset : Finset INT32) (ctx : SyscallCtx) (s : Shadow),
      HasMapped ctx → s.Sound → (∀ start, mmapFill os mmapType fdset ctx = some (some start) →
        s.RoomFor (labelSets start ctx.mapLen)) → s.KeepsToPages os mmapType fdset ctx := by
  intro claim
  obtain ⟨e, t, run, keeps⟩ := claim noKernel true ∅ mmapDown secondTainted mmapDown_hasMapped
    secondTainted_sound (by rintro start ⟨⟩)
  obtain ⟨t', run', filled⟩ := postMmapHook_filled mmapDown_hasMapped secondTainted_sound
    mmapDown_fills (by simp) (by simp)
  cases run.symm.trans run'
  have down : mmapDown.GrowsDown := by decide
  have two : 1 < mmapDown.mapLen := by decide
  have old := filled.le.labelsOf_eq secondTainted_sound (mmapDown_hasMapped.not_mem_moved down two)
  obtain ⟨-, mapping⟩ := keeps rfl
  obtain empty | ⟨start, ⟨⟩, empty⟩ := mapping 1 two
  · exact secondTainted_labels (old.symm.trans empty)
  · exact secondTainted_labels (old.symm.trans empty)

end LibdftDr
