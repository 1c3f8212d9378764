import LibdftDr.Core.Handlers
import LibdftDr.Library.Overlap

/-!
# Memory to memory

PUSH and POP with a memory operand and MOVS copy tags with `m2mXfer`, and so does the summary
of a copying function. The loop reads each byte after it has written the ones before: it is a
forward copy of the shadow, and where source and destination overlap the library says when
it moves the tags as the instruction moves the bytes.
-/
namespace LibdftDr
open Library Library.Action

/-- The ranges that the shadow covers do not wrap. -/
theorem InRange.successive {addr : ADDRINT} {n : ℕ} (h : InRange addr n) :
    Successive BitVec.toNat (byteAt addr) addr.toNat n := by
  intro i hi
  induction i with
  | zero => simp [byteAt]
  | succ i ih =>
    have before := ih (by omega)
    have inside := BitVec.le_def.mp (h i (by omega))
    have last : lastAddress.toNat = 0x7fffffffffff := rfl
    simp only [byteAt, BitVec.toNat_add, BitVec.toNat_ofNat] at before inside ⊢
    omega

theorem inRange_of_toNat_le {addr : ADDRINT} {n : ℕ} (h : addr.toNat + n ≤ 2 ^ 47) :
    InRange addr n := by
  intro i hi
  have last : lastAddress.toNat = 2 ^ 47 - 1 := rfl
  simp only [byteAt, BitVec.le_def, BitVec.toNat_add, BitVec.toNat_ofNat]
  omega

/-- A byte of a range that does not wrap, by its distance from the start. -/
theorem mem_memSpan_iff {addr : ADDRINT} {n : ℕ} (h : InRange addr n) (a : ADDRINT) :
    Cell.mem a ∈ memSpan addr n ↔ addr.toNat ≤ a.toNat ∧ a.toNat < addr.toNat + n := by
  constructor
  · rintro ⟨i, hi, e⟩
    cases e
    rw [h.successive i hi]
    omega
  · rintro ⟨lo, hi⟩
    have inside : a.toNat - addr.toNat < n := by omega
    refine ⟨_, inside, congrArg Cell.mem (BitVec.eq_of_toNat_eq ?_)⟩
    rw [h.successive _ inside]
    omega

section Cleared

variable {addr : ADDRINT} {k : UINT32}

theorem clrn_cell (s : Shadow) (a : ADDRINT) :
    (s.withTagDir (fileTagmapClrn s.tagDir addr k)).cell (.mem a) =
      if addr ≤ a ∧ a < addr + k.setWidth 64 then clearedVal else s.cell (.mem a) :=
  TagDir.clrn_tagAt s.tagDir addr a k

theorem clrn_empties (s : Shadow) (h : InRange addr k.toNat) {i : ℕ} (hi : i < k.toNat) :
    (s.withTagDir (fileTagmapClrn s.tagDir addr k)).cell (.mem (byteAt addr i)) = clearedVal := by
  have inside := (mem_memSpan_iff h _).mp (mem_memSpan_self hi)
  rw [clrn_cell, if_pos ((TagDir.mem_clrn_iff k (h i hi)).mpr inside)]

theorem clrn_frame (s : Shadow) (h : InRange addr k.toNat) {c : Cell}
    (hc : c ∉ memSpan addr k.toNat) :
    (s.withTagDir (fileTagmapClrn s.tagDir addr k)).cell c = s.cell c := by
  cases c with
  | reg r b => rfl
  | mem a =>
    rw [clrn_cell]
    split_ifs with reached
    · by_cases user : a ≤ lastAddress
      · exact absurd ((mem_memSpan_iff h a).mpr ((TagDir.mem_clrn_iff k user).mp reached)) hc
      · exact (TagDir.tagAt_of_not_le _ user).symm
    · rfl

end Cleared

/-- The loop of the transfer is a forward copy, and touches nothing but memory tags. -/
theorem m2mXfer_run {dstAddr srcAddr : ADDRINT} {n : ℕ} {s : Shadow} (hd : InRange dstAddr n)
    (hs : InRange srcAddr n) : ∃ dir,
    m2mXfer dstAddr srcAddr n s = .ok (⟨⟩, s.withTagDir dir) ∧
      dir.tagAt = forwardCopy s.tagDir.tagAt (byteAt dstAddr) (byteAt srcAddr) n := by
  induction n with
  | zero => exact ⟨s.tagDir, rfl, rfl⟩
  | succ n ih =>
    obtain ⟨dir, run, copied⟩ := ih (fun i hi => hd i (by omega)) fun i hi => hs i (by omega)
    have read : getb (byteAt srcAddr n) (s.withTagDir dir) =
        .ok (dir.tagAt (byteAt srcAddr n), s.withTagDir dir) := getb_of_le (hs n (by omega)) _
    refine ⟨tagmapSetbWithTag dir (byteAt dstAddr n) (dir.tagAt (byteAt srcAddr n)), ?_, ?_⟩
    · rw [m2mXfer, loop_succ_of_ok run, bind_of_ok read]
      rfl
    · funext a
      rw [tagmapSetbWithTag, TagDir.tagAt_setb, forwardCopy, ← copied, Function.update_apply]
      simp only [hd n (by omega), and_true]

/-- `t` is `s` with the tags of the source moved to the destination, and nothing else. -/
structure Shadow.Moved (s t : Shadow) (dst src : ADDRINT) (n : ℕ) : Prop where
  bytes : ∀ i < n, t.cell (.mem (byteAt dst i)) = s.cell (.mem (byteAt src i))
  frame : ∀ c ∉ memSpan dst n, t.cell c = s.cell c
  sets : t.sets = s.sets

/-- The tags of `n` bytes repeat at distance `k`. -/
def Shadow.Repeats (s : Shadow) (src : ADDRINT) (k n : ℕ) : Prop :=
  ∀ i, i + k < n → s.cell (.mem (byteAt src (i + k))) = s.cell (.mem (byteAt src i))

/-- The destination starts inside the source, at a distance at which the tags do not repeat. -/
def Shadow.Smears (s : Shadow) (dst src : ADDRINT) (n : ℕ) : Prop :=
  src < dst ∧ ¬ s.Repeats src (dst.toNat - src.toNat) n

theorem Shadow.not_smears_of_le {s : Shadow} {dst src : ADDRINT} {n : ℕ}
    (h : src.toNat + n ≤ dst.toNat) : ¬ s.Smears dst src n := by
  rintro ⟨-, again⟩
  exact again fun i hi => by omega

section Copied

variable {s t : Shadow} {dst src : ADDRINT} {n : ℕ} {dir : TagDir}

theorem Shadow.cell_of_forwardCopy
    (h : dir.tagAt = forwardCopy s.tagDir.tagAt (byteAt dst) (byteAt src) n) {c : Cell}
    (hc : c ∉ memSpan dst n) : (s.withTagDir dir).cell c = s.cell c := by
  cases c with
  | reg r b => rfl
  | mem a =>
    have other : ∀ i < n, a ≠ byteAt dst i := by
      rintro i hi rfl
      exact hc (mem_memSpan_self hi)
    simp only [Shadow.cell, Shadow.withTagDir, h, forwardCopy_of_ne other]

/-- A forward copy of the shadow moves the tags exactly when it does not smear them. -/
theorem Shadow.moved_iff (hd : InRange dst n) (hs : InRange src n)
    (h : dir.tagAt = forwardCopy s.tagDir.tagAt (byteAt dst) (byteAt src) n) :
    s.Moved (s.withTagDir dir) dst src n ↔ ¬ s.Smears dst src n := by
  have inj : Function.Injective (BitVec.toNat (w := 64)) := fun _ _ => BitVec.eq_of_toNat_eq
  have moves := forwardCopy_moves_iff (m := s.tagDir.tagAt) inj hd.successive hs.successive
  rw [← h] at moves
  have smears : ¬ s.Smears dst src n ↔
      (src.toNat < dst.toNat →
        Library.Repeats s.tagDir.tagAt (byteAt src) (dst.toNat - src.toNat) n) := by
    simp only [Shadow.Smears, not_and, not_not, BitVec.lt_def]
    rfl
  rw [smears, ← moves]
  exact ⟨fun m => m.bytes, fun m => ⟨m, fun _ => Shadow.cell_of_forwardCopy h, rfl⟩⟩

end Copied

/-- The transfer moves the tags as the CPU moves the bytes if and only if the destination does
not start inside the source, or the tags of the source repeat at that distance. -/
theorem m2m_xfer_moves_iff {dstAddr srcAddr : ADDRINT} {n : ℕ} {s : Shadow}
    (hd : InRange dstAddr n) (hs : InRange srcAddr n) :
    (∃ t, m2mXfer dstAddr srcAddr n s = .ok (⟨⟩, t) ∧ s.Moved t dstAddr srcAddr n) ↔
      ¬ s.Smears dstAddr srcAddr n := by
  obtain ⟨dir, run, copied⟩ := m2mXfer_run hd hs
  rw [← Shadow.moved_iff hd hs copied]
  constructor
  · rintro ⟨t, run', moved⟩
    obtain rfl : s.withTagDir dir = t := by simpa [run] using run'
    exact moved
  · exact fun moved => ⟨_, run, moved⟩

/-- The state in which one byte of memory carries offset 0 of the input. -/
def oneTainted (addr : ADDRINT) : Shadow :=
  (Shadow.new.withSets (Tag.set 0 tagmapAlloc).2).withTagDir
    (tagmapSetbWithTag TagDir.new addr (Tag.set 0 tagmapAlloc).1)

theorem oneTainted_cell (addr b : ADDRINT) : (oneTainted addr).cell (.mem b) =
    if b = addr ∧ addr ≤ lastAddress then ⟨1⟩ else clearedVal := by
  have tag : (Tag.set 0 tagmapAlloc).1 = ⟨1⟩ := rfl
  simp only [oneTainted, Shadow.cell, Shadow.withTagDir, tagmapSetbWithTag, TagDir.tagAt_setb, tag,
    TagDir.tagAt_new]

theorem oneTainted_sound (addr : ADDRINT) : (oneTainted addr).Sound := by
  have paint : Flow Set.univ Set.univ ∅ True (fun _ => ∅)
      (do let t ← setTag 0; setb addr t) :=
    copy_flow (setTag_flow (Set.mem_univ _)) fun t => setb_flow (by simp) (Set.mem_univ _)
  have run : (do let t ← setTag 0; setb addr t : Engine PUnit) Shadow.new =
      .ok (⟨⟩, oneTainted addr) := rfl
  exact (paint.of_ok Shadow.new_sound Shadow.new_sound.within_univ run).2.1

theorem oneTainted_labelsOf {addr : ADDRINT} (h : addr ≤ lastAddress) :
    (oneTainted addr).labelsOf (.mem addr) ≠ ∅ := by
  rw [Ne, (oneTainted_sound addr).labelsOf_eq_empty, oneTainted_cell, if_pos ⟨rfl, h⟩]
  decide

/-- A word that moves one byte up over itself, the lower byte tainted. -/
theorem oneTainted_smears : (oneTainted 0x1000).Smears 0x1001 0x1000 2 := by
  refine ⟨by decide, fun again => ?_⟩
  have same := again 0 (by decide)
  rw [oneTainted_cell, oneTainted_cell] at same
  exact absurd same (by decide)

/-- Moved two bytes up, the tags of a word arrive; moved by one, they do not. -/
theorem m2m_xfer_moves_iff_word :
    (∃ t, m2mXfer 0x1002 0x1000 2 (oneTainted 0x1000) = .ok (⟨⟩, t) ∧
      (oneTainted 0x1000).Moved t 0x1002 0x1000 2) ∧
    ¬ ∃ t, m2mXfer 0x1001 0x1000 2 (oneTainted 0x1000) = .ok (⟨⟩, t) ∧
      (oneTainted 0x1000).Moved t 0x1001 0x1000 2 := by
  have src : InRange 0x1000 2 := inRange_of_toNat_le (by decide)
  constructor
  · exact (m2m_xfer_moves_iff (inRange_of_toNat_le (by decide)) src).mpr
      (Shadow.not_smears_of_le (by decide))
  · exact fun moves => (m2m_xfer_moves_iff (inRange_of_toNat_le (by decide)) src).mp moves
      oneTainted_smears

/-- The upper byte of such a word gets the tag of the lower one, which it did not hold. -/
theorem m2m_xfer_smears :
    ¬ ∀ (dstAddr srcAddr : ADDRINT) (n : ℕ) (s : Shadow), InRange dstAddr n → InRange srcAddr n →
      ∃ t, m2mXfer dstAddr srcAddr n s = .ok (⟨⟩, t) ∧ s.Moved t dstAddr srcAddr n := by
  intro claim
  have dst : InRange 0x1001 2 := inRange_of_toNat_le (by decide)
  have src : InRange 0x1000 2 := inRange_of_toNat_le (by decide)
  obtain ⟨dir, run, copied⟩ := m2mXfer_run (s := oneTainted 0x1000) dst src
  obtain ⟨t, run', moved⟩ := claim _ _ _ (oneTainted 0x1000) dst src
  cases run.symm.trans run'
  exact (Shadow.moved_iff dst src copied).mp moved oneTainted_smears

end LibdftDr
