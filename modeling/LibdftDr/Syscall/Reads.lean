import LibdftDr.Machine.Labels
import LibdftDr.Syscall.Failures

/-!
# Reads of a file

`read` finds the file offset of its first byte by seeking after the call and going back by the
count, `pread64` has it as an argument. Both label each byte of the buffer with its own offset
when the descriptor is tracked, and empty the buffer when it is not.
-/
namespace LibdftDr
open Library Library.Action

/-- Read calls, `read` and `pread64`: what they share and where the offset is. -/
inductive ReadCall where
  | read | pread64

namespace ReadCall

def hook : ReadCall → PostHook
  | .read => .read
  | .pread64 => .pread64

/-- The call knows that the bytes it has read start at offset `p`: `lseek` reports the position
after them, or the offset is the argument. -/
def StartsAt (os : KernelView) (ctx : SyscallCtx) (p : ℕ) : ReadCall → Prop
  | .read => (os.seekCur (toInt32 (ctx.arg 0))).toNat = p + ctx.ret.toNat
  | .pread64 => (ctx.arg 3).toNat = p

end ReadCall

/-- A call that has read the bytes of a file from offset `p` on into its buffer. Linux reads at
most `0x7ffff000` bytes at a time, so that the count fits in 32 bits. -/
structure HasRead (os : KernelView) (ctx : SyscallCtx) (c : ReadCall) (p : ℕ) : Prop where
  succeeded : 0 ≤ ctx.ret.toInt
  count : ctx.ret.toNat < 2 ^ 32
  user : InRange (ctx.arg 1) ctx.ret.toNat
  labels : p + ctx.ret.toNat ≤ 2 ^ 32
  start : c.StartsAt os ctx p

/-- The descriptor of the call is tracked. -/
def SyscallCtx.Tracked (ctx : SyscallCtx) (fdset : Finset INT32) : Prop :=
  toInt32 (ctx.arg 0) ∈ fdset

instance (ctx : SyscallCtx) (fdset : Finset INT32) : Decidable (ctx.Tracked fdset) :=
  inferInstanceAs (Decidable (_ ∈ _))

/-- Where the hooks start to count, if they paint. -/
def SyscallCtx.readStart (ctx : SyscallCtx) (fdset : Finset INT32) (p : ℕ) : Option UINT64 :=
  if ctx.Tracked fdset then some (BitVec.ofNat 64 p) else none

section Reads

variable {os : KernelView} {fdset : Finset INT32} {ctx : SyscallCtx} {c : ReadCall} {p : ℕ}

theorem fillBytes_readStart (buf : ADDRINT) (n : ℕ) :
    fillBytes buf n (ctx.readStart fdset p) =
      if toInt32 (ctx.arg 0) ∈ fdset then paintBytes buf (BitVec.ofNat 64 p) n
      else clearBytes buf n :=
  apply_ite (fillBytes buf n) (ctx.Tracked fdset) _ _

/-- Both hooks fill the buffer from the offset of its first byte on. -/
theorem HasRead.hook_run (h : HasRead os ctx c p) (s : Shadow) :
    c.hook.run os fdset ctx s =
      (do fillBytes (ctx.arg 1) ctx.ret.toNat (ctx.readStart fdset p)
          pure .returned : Engine HookEnd) s := by
  have count := h.count
  have narrow : ((ctx.ret.setWidth 32 : UINT32)).toNat = ctx.ret.toNat := by
    rw [BitVec.toNat_setWidth]
    omega
  have labels := h.labels
  have start := h.start
  rw [fillBytes_readStart]
  cases c with
  | read =>
    -- the position after the call less the count, in 64 bits
    have first : os.seekCur (toInt32 (ctx.arg 0)) - (ctx.ret.setWidth 32 : UINT32).setWidth 64 =
        BitVec.ofNat 64 p := by
      rw [ReadCall.StartsAt] at start
      apply BitVec.eq_of_toNat_eq
      rw [BitVec.toNat_sub, BitVec.toNat_setWidth, narrow, start, BitVec.toNat_ofNat]
      omega
    simp only [ReadCall.hook, PostHook.run, postReadHook, first, narrow]
    by_cases zero : ctx.ret.toInt ≤ 0
    · have none : ctx.ret.toNat = 0 := by
        have := h.succeeded
        rw [BitVec.toInt_eq_toNat_of_lt (by omega)] at zero
        omega
      rw [if_pos zero, none]
      split_ifs <;> rfl
    · rw [if_neg zero]
  | pread64 =>
    have first : ctx.arg 3 = BitVec.ofNat 64 p := by
      rw [ReadCall.StartsAt] at start
      rw [← start, BitVec.ofNat_toNat, BitVec.setWidth_eq]
    simp only [ReadCall.hook, PostHook.run, postPread64Hook, first, narrow,
      if_neg (not_lt.mpr h.succeeded)]

theorem HasRead.fillLabels_eq (h : HasRead os ctx c p) {i : ℕ} (hi : i < ctx.ret.toNat) :
    fillLabels (ctx.readStart fdset p) i = if ctx.Tracked fdset then {p + i} else ∅ := by
  have labels := h.labels
  have label : (offsetLabel (BitVec.ofNat 64 p) i).toNat = p + i := by
    rw [offsetLabel_toNat, BitVec.toNat_ofNat]
    omega
  rw [SyscallCtx.readStart]
  split_ifs
  · rw [← label]
    rfl
  · rfl

end Reads

/-- A successful read leaves each byte of its buffer with its file offset as its only label when
the descriptor is tracked and empty when it is not, changes no other cell, and leaves the shadow
that any other call leaves which has read the same bytes of the file into the same buffer. -/
theorem reads_label_offsets {os : KernelView} {fdset : Finset INT32} {ctx : SyscallCtx}
    {c : ReadCall} {p : ℕ} {s : Shadow} (h : HasRead os ctx c p) (sound : s.Sound)
    (room : ctx.Tracked fdset → s.RoomFor (labelSets (BitVec.ofNat 64 p) ctx.ret.toNat)) :
    ∃ t, c.hook.run os fdset ctx s = .ok (.returned, t) ∧
      (∀ i < ctx.ret.toNat, t.labelsOf (.mem (byteAt (ctx.arg 1) i)) =
        if ctx.Tracked fdset then {p + i} else ∅) ∧
      (∀ cell ∉ memSpan (ctx.arg 1) ctx.ret.toNat, t.cell cell = s.cell cell) ∧
      ∀ os' ctx' c', HasRead os' ctx' c' p → ctx'.arg 1 = ctx.arg 1 → ctx'.ret = ctx.ret →
        (ctx'.Tracked fdset ↔ ctx.Tracked fdset) →
        c'.hook.run os' fdset ctx' s = .ok (.returned, t) := by
  have room' : ∀ offset ∈ ctx.readStart fdset p, s.RoomFor (labelSets offset ctx.ret.toNat) := by
    intro offset ho
    rw [SyscallCtx.readStart] at ho
    split_ifs at ho with tracked
    · cases ho
      exact room tracked
    · cases ho
  obtain ⟨t, run, filled⟩ := fillBytes_run sound (fun _ => h.user) room'
  have whole : c.hook.run os fdset ctx s = .ok (.returned, t) := by
    rw [h.hook_run, bind_of_ok run]
    rfl
  refine ⟨t, whole, fun i hi => ?_, filled.le.frame, fun os' ctx' c' h' buf ret tracked => ?_⟩
  · rw [filled.bytes i hi, h.fillLabels_eq hi]
  · have same : ctx'.readStart fdset p = ctx.readStart fdset p := if_congr tracked rfl rfl
    rw [h'.hook_run, buf, ret, same, bind_of_ok run]
    rfl

/-- The position of every descriptor is 5. -/
def atFive : KernelView := { noKernel with seekCur := fun _ => 5 }

/-- Two bytes read from offset 3, where that is an argument. -/
def readTwo : SyscallCtx where
  arg i := if i.val = 0 then 3 else if i.val = 1 then 0x10000 else if i.val = 3 then 3 else 0
  ret := 2

theorem readTwo_hasRead (c : ReadCall) : HasRead atFive readTwo c 3 where
  succeeded := by decide
  count := by decide
  user := inRange_of_toNat_le (by decide)
  labels := by decide
  start := by cases c <;> rfl

/-- Two bytes at offset 3 get labels 3 and 4, by `read` and by `pread64`. -/
theorem reads_label_offsets_two : ∃ t,
    PostHook.read.run atFive {3} readTwo Shadow.new = .ok (.returned, t) ∧
      PostHook.pread64.run atFive {3} readTwo Shadow.new = .ok (.returned, t) ∧
        ∀ i < 2, t.labelsOf (.mem (byteAt 0x10000 i)) = {3 + i} := by
  have tracked : readTwo.Tracked {3} := by decide
  have room : Shadow.new.RoomFor (labelSets (BitVec.ofNat 64 3) readTwo.ret.toNat) :=
    Shadow.RoomFor.of_length_le Shadow.new_sound (by decide) _
  obtain ⟨t, run, bytes, -, same⟩ :=
    reads_label_offsets (readTwo_hasRead .read) Shadow.new_sound fun _ => room
  refine ⟨t, run, same _ _ _ (readTwo_hasRead .pread64) rfl rfl Iff.rfl, fun i hi => ?_⟩
  refine (bytes i hi).trans ?_
  rw [if_pos tracked]

/-- One byte read at the last offset that is a label. -/
def readLast : SyscallCtx where
  arg i :=
    if i.val = 0 then 3 else if i.val = 1 then 0x10000 else if i.val = 3 then 0xffffffff else 0
  ret := 1

theorem readLast_hasRead : HasRead noKernel readLast .pread64 (2 ^ 32 - 1) where
  succeeded := by decide
  count := by decide
  user := inRange_of_toNat_le (by decide)
  labels := by decide
  start := by rw [ReadCall.StartsAt]; decide

/-- When every id has been given out, the label set of a new offset gets the id of the empty set:
the byte that was read is empty. -/
theorem reads_label_nothing :
    ¬ ∀ (es : List Event) (s : Shadow) (os : KernelView) (fdset : Finset INT32) (ctx : SyscallCtx)
      (c : ReadCall) (p : ℕ), Run Step Shadow.new es s → HasRead os ctx c p →
      ∃ t, c.hook.run os fdset ctx s = .ok (.returned, t) ∧
        ∀ i < ctx.ret.toNat, t.labelsOf (.mem (byteAt (ctx.arg 1) i)) =
          if ctx.Tracked fdset then {p + i} else ∅ := by
  intro claim
  obtain ⟨s, painted, h⟩ := painted_run (2 ^ 32 - 1) (by omega)
  obtain ⟨tb, set, -⟩ := h.set_tag (by omega)
  obtain ⟨t, run, labels⟩ := claim _ s noKernel {3} readLast .pread64 _ painted readLast_hasRead
  have step : Step s (.hook noKernel {3} readLast .pread64) t :=
    ⟨trivial, by simp [Event.tags], run⟩
  have sound : t.Sound := (step.conclusions h.sound).1
  have read : getb 0x10000 s = .ok (_, s) := getb_of_le (by decide) s
  obtain ⟨u, write⟩ : ∃ u, setb 0x10000 clearedVal (s.withSets tb) = .ok (⟨⟩, u) := ⟨_, rfl⟩
  have tag : setTag (offsetLabel (BitVec.ofNat 64 (2 ^ 32 - 1)) 0) s =
      .ok (clearedVal, s.withSets tb) := by
    have label : offsetLabel (BitVec.ofNat 64 (2 ^ 32 - 1)) 0 = BitVec.ofNat 32 (2 ^ 32 - 1) := by
      decide
    rw [setTag, label, set]
    rfl
  have paint : paintBytes 0x10000 (BitVec.ofNat 64 (2 ^ 32 - 1)) 1 s = .ok (⟨⟩, u) := by
    rw [paintBytes, loop_one, byteAt_zero, bind_of_ok read, bind_of_ok tag]
    exact write
  have filled : ReadCall.pread64.hook.run noKernel {3} readLast s = .ok (.returned, u) := by
    rw [readLast_hasRead.hook_run, fillBytes_readStart, if_pos (by decide)]
    exact bind_of_ok paint
  cases run.symm.trans filled
  have empty : t.labelsOf (.mem (byteAt 0x10000 0)) = ∅ := by
    refine (sound.labelsOf_eq_empty _).mpr ?_
    rw [(Shadow.cell_setb write).2, if_pos ⟨by decide, by decide⟩]
  have last := labels 0 (by decide)
  rw [if_pos (by decide)] at last
  exact absurd (last.symm.trans empty) (Finset.singleton_ne_empty _)

end LibdftDr
