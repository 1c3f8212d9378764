import LibdftDr.Core.Agreement
import LibdftDr.Core.Meanings

/-!
# Sign extensions

MOVSX fills the extension with the tag of the top source byte. CBW, CWDE and CDQE are the same
extensions of the accumulator, and CWD, CDQ and CQO fill RDX with its sign, but both are inserted
as copies of the source bytes. `sign_extensions_agree_iff` says that the two ways agree exactly
when all source bytes carry the tag of the top one.
-/
namespace LibdftDr
open Library Library.Action

/-! ## The extending handler -/

/-- The bytes of the source, then the tag of the top one. -/
def extend {ν : Type} (dstRow srcRow srcStart srcn dstn : ℕ) (m : Cell → ν) : Cell → ν :=
  let low := rounds (fun i => put (.reg dstRow i) (.reg srcRow (srcStart + i))) srcn m
  rounds (fun i m => Function.update m (.reg dstRow (srcn + i))
    (low (.reg srcRow (srcStart + srcn - 1)))) (dstn - srcn) low

theorem movsxR2r_does {ν : Type} {d : Meaning ν} {held : Set (Tag × ν)} {m : Cell → ν}
    {dstRow srcRow srcStart srcn dstn : ℕ} (hd : GprSpan dstRow 0 (max srcn dstn))
    (hs : GprSpan srcRow srcStart srcn) (pos : srcn ≠ 0) :
    d.Does held m (fun _ => ∅) (extend dstRow srcRow srcStart srcn dstn m)
      (movsxR2r dstRow srcRow srcStart srcn dstn) := by
  have file : ∀ {i}, i < max srcn dstn → InFile dstRow i := fun hi => by
    simpa using hd.inFile hi
  have top : InFile srcRow (srcStart + srcn - 1) := by
    have := hs.inFile (by omega : srcn - 1 < srcn)
    rwa [Nat.add_sub_assoc (by omega)]
  unfold movsxR2r
  rw [if_neg pos]
  refine (View.Does.loop (fun i hi m => ?_) m).bind fun _ =>
    (Meaning.gprGet_does top).bind fun _ => View.Does.loop (fun i hi m => ?_) _
  · exact (Meaning.gprGet_does (hs.inFile hi)).bind fun _ =>
      Meaning.gprSet_does (file (by omega)) (.inr rfl)
  · exact Meaning.gprSet_does (file (by omega)) (.inr rfl)

/-! ## The instructions -/

/-- The extensions of the accumulator in place. -/
inductive SignExt where
  | cbw | cwde | cdqe
  deriving DecidableEq

namespace SignExt

def src : SignExt → RegWidth
  | cbw => .b1
  | cwde => .b2
  | cdqe => .b4

def dst : SignExt → RegWidth
  | cbw => .b2
  | cwde => .b4
  | cdqe => .b8

/-- MOVSX of the accumulator; the 64-bit form of it is MOVSXD. -/
def movOpcode : SignExt → Opcode
  | cbw | cwde => .movsx
  | cdqe => .movsxd

theorem dst_bytes (k : SignExt) : k.dst.bytes = k.src.bytes + k.src.bytes := by cases k <;> rfl

end SignExt

/-- CBW, CWDE or CDQE. -/
structure Instr.IsAccumExtend (instr : Instr) (k : SignExt) : Prop where
  opcode : instr.opcode = .cwde
  dst : instr.dsts.head? = some (.reg (.gpr .rax k.dst))

/-- The same extension as MOVSX or MOVSXD. -/
structure Instr.IsMovExtend (instr : Instr) (k : SignExt) : Prop where
  opcode : instr.opcode = k.movOpcode
  dst : instr.dsts.head? = some (.reg (.gpr .rax k.dst))
  src : instr.srcs.head? = some (.reg (.gpr .rax k.src))

/-- CWD, CDQ or CQO of width `w`. -/
structure Instr.IsSignOf (instr : Instr) (w : RegWidth) : Prop where
  opcode : instr.opcode = .cdq
  dst : instr.dsts.head? = some (.reg (.gpr .rdx w))

/-- The low `n` bytes of RAX all carry the tag of the top one of them. -/
def Shadow.TopTagged (s : Shadow) (n : ℕ) : Prop :=
  ∀ i < n, s.cell (.reg DFT_REG_RAX i) = s.cell (.reg DFT_REG_RAX (n - 1))

/-- `t` is `s` with `n` bytes of a row rewritten. -/
structure Shadow.Rewritten (s t : Shadow) (row start n : ℕ) (tag : ℕ → Tag) : Prop where
  sets : t.sets = s.sets
  bytes : ∀ i < n, t.cell (.reg row (start + i)) = tag i
  frame : ∀ c ∉ regSpan row start n, t.cell c = s.cell c

/-- Two ways of rewriting the same bytes come to the same exactly if they write the same. -/
theorem Shadow.Rewritten.agree_iff {s t u : Shadow} {row start n : ℕ} {f g : ℕ → Tag}
    (ht : s.Rewritten t row start n f) (hu : s.Rewritten u row start n g) :
    Shadow.AgreeOff ∅ u t ↔ ∀ i < n, f i = g i := by
  constructor
  · intro agree i hi
    rw [← ht.bytes i hi, ← hu.bytes i hi]
    exact agree.cells _ (Set.notMem_empty _)
  · refine fun same => ⟨ht.sets.trans hu.sets.symm, fun c _ => ?_⟩
    by_cases hc : c ∈ regSpan row start n
    · obtain ⟨i, hi, rfl⟩ := hc
      rw [ht.bytes i hi, hu.bytes i hi, same i hi]
    · rw [ht.frame c hc, hu.frame c hc]

section Result

variable {instr : Instr} {k : SignExt} {w : RegWidth} {s : Shadow} (app : AppView)
  (limitOffset : INT32) (cpu : Cpu)

/-- A copy whose destination is no source byte. -/
theorem r2rXfer_run {dstRow dstStart srcRow srcStart n : ℕ} (hd : GprSpan dstRow dstStart n)
    (hs : GprSpan srcRow srcStart n) (apart : dstRow ≠ srcRow ∨ srcStart + n ≤ dstStart) :
    ∃ t, runCalls app limitOffset [.r2rXfer dstRow dstStart srcRow srcStart n] s = .ok ([], t) ∧
      s.Rewritten t dstRow dstStart n fun i => s.cell (.reg srcRow (srcStart + i)) := by
  have copies : (CleanCall.r2rXfer dstRow dstStart srcRow srcStart n).run app limitOffset =
      CleanCall.silent (r2rXfer dstRow dstStart srcRow srcStart n) := rfl
  obtain ⟨t, run, sets, cells⟩ := runCalls_tags (s := s) copies (Meaning.r2rXfer_does hd hs)
  refine ⟨t, run, sets, fun i hi => ?_, fun c hc => ?_⟩
  · rw [cells]
    refine puts_apply (fun i hi j lt => ⟨?_, ?_⟩) hi <;> simp <;> omega
  · rw [cells]
    exact puts_frame fun i hi e => hc ⟨i, hi, e⟩

/-- CBW, CWDE and CDQE copy the source bytes to the extension. -/
theorem Instr.IsAccumExtend.run (ext : instr.IsAccumExtend k) :
    ∃ t, runCalls app limitOffset (insInspectDr cpu instr) s = .ok ([], t) ∧
      s.Rewritten t DFT_REG_RAX k.src.bytes k.src.bytes fun i => s.cell (.reg DFT_REG_RAX i) := by
  have inserted : insInspectDr cpu instr =
      [.r2rXfer DFT_REG_RAX k.src.bytes DFT_REG_RAX 0 k.src.bytes] := by
    simp only [insInspectDr, ext.opcode, insertCwdeFamily, ext.dst]
    cases k <;> rfl
  have bytes : k.src.bytes + k.src.bytes ≤ 8 := k.dst_bytes ▸ k.dst.bytes_le
  have upper : GprSpan DFT_REG_RAX k.src.bytes k.src.bytes := GprSpan.of_le (by decide) (by omega)
  have lower : GprSpan DFT_REG_RAX 0 k.src.bytes := GprSpan.of_le (by decide) (by omega)
  rw [inserted]
  simpa only [Nat.zero_add] using r2rXfer_run app limitOffset upper lower (.inr (by omega))

/-- MOVSX fills the extension with the tag of the top source byte. -/
theorem Instr.IsMovExtend.run (ext : instr.IsMovExtend k) :
    ∃ t, runCalls app limitOffset (insInspectDr cpu instr) s = .ok ([], t) ∧
      s.Rewritten t DFT_REG_RAX k.src.bytes k.src.bytes
        fun _ => s.cell (.reg DFT_REG_RAX (k.src.bytes - 1)) := by
  have inserted : insInspectDr cpu instr =
      [.movsxR2r DFT_REG_RAX DFT_REG_RAX 0 k.src.bytes k.dst.bytes] := by
    have opcode : insInspectDr cpu instr = insertExtend cpu instr true := by
      cases k <;> simp only [insInspectDr, ext.opcode, SignExt.movOpcode]
    simp only [opcode, insertExtend, ext.dst, ext.src, regShadowSpan_gpr]
    rfl
  have fills : (CleanCall.movsxR2r DFT_REG_RAX DFT_REG_RAX 0 k.src.bytes k.dst.bytes).run app
      limitOffset = CleanCall.silent
        (movsxR2r DFT_REG_RAX DFT_REG_RAX 0 k.src.bytes k.dst.bytes) := rfl
  have bytes := k.dst_bytes
  have le := k.dst.bytes_le
  have pos := k.src.bytes_pos
  obtain ⟨t, run, sets, cells⟩ := runCalls_tags (s := s) fills (movsxR2r_does
    (GprSpan.of_le (by decide) (by omega)) (GprSpan.of_le (by decide) (by omega)) (by omega))
  have low : rounds (fun i => put (.reg DFT_REG_RAX i) (.reg DFT_REG_RAX i)) k.src.bytes s.cell =
      s.cell := rounds_of_id (fun i m => Function.update_eq_self _ m) _ _
  have upper : k.dst.bytes - k.src.bytes = k.src.bytes := by omega
  simp only [extend, upper, Nat.zero_add, low] at cells
  rw [inserted]
  refine ⟨t, run, sets, fun i hi => ?_, fun c hc => ?_⟩
  · rw [cells]
    exact fills_apply (d := fun i => .reg DFT_REG_RAX (k.src.bytes + i)) hi
  · rw [cells]
    exact fills_frame (d := fun i => .reg DFT_REG_RAX (k.src.bytes + i)) fun i hi e => hc ⟨i, hi, e⟩

/-- CWD, CDQ and CQO copy the accumulator to RDX. -/
theorem Instr.IsSignOf.run (sign : instr.IsSignOf w) :
    ∃ t, runCalls app limitOffset (insInspectDr cpu instr) s = .ok ([], t) ∧
      s.Rewritten t DFT_REG_RDX 0 w.bytes fun i => s.cell (.reg DFT_REG_RAX i) := by
  have le := w.bytes_le
  have inserted : insInspectDr cpu instr = [.r2rXfer DFT_REG_RDX 0 DFT_REG_RAX 0 w.bytes] := by
    simp only [insInspectDr, sign.opcode, insertCdqFamily, sign.dst]
    exact if_neg w.bytes_pos.ne'
  have rdx : GprSpan DFT_REG_RDX 0 w.bytes := GprSpan.of_le (by decide) (by omega)
  have rax : GprSpan DFT_REG_RAX 0 w.bytes := GprSpan.of_le (by decide) (by omega)
  rw [inserted]
  simpa only [Nat.zero_add] using r2rXfer_run app limitOffset rdx rax (.inl (by decide))

end Result

/-- An extension of the accumulator leaves the shadow that MOVSX leaves, and CWD, CDQ or CQO
gives RDX the tag of the top byte of the accumulator, if and only if all source bytes carry the
tag of the top one. -/
theorem sign_extensions_agree_iff (app : AppView) (limitOffset : INT32) (cpu : Cpu) (s : Shadow) :
    (∀ (k : SignExt) (accum mov : Instr), accum.IsAccumExtend k → mov.IsMovExtend k →
      ((∃ recs t, runCalls app limitOffset (insInspectDr cpu accum) s = .ok (recs, t) ∧
        ∃ recs' u, runCalls app limitOffset (insInspectDr cpu mov) s = .ok (recs', u) ∧
          Shadow.AgreeOff ∅ u t) ↔ s.TopTagged k.src.bytes)) ∧
    ∀ (w : RegWidth) (sign : Instr), sign.IsSignOf w →
      ((∃ recs t, runCalls app limitOffset (insInspectDr cpu sign) s = .ok (recs, t) ∧
        ∀ i < w.bytes, t.cell (.reg DFT_REG_RDX i) = s.cell (.reg DFT_REG_RAX (w.bytes - 1))) ↔
          s.TopTagged w.bytes) := by
  constructor
  · intro k accum mov hAccum hMov
    obtain ⟨t, run, copied⟩ := hAccum.run app limitOffset cpu (s := s)
    obtain ⟨u, run', filled⟩ := hMov.run app limitOffset cpu (s := s)
    simp only [exists_run_iff run, exists_run_iff run']
    exact copied.agree_iff filled
  · intro w sign hSign
    obtain ⟨t, run, copied⟩ := hSign.run app limitOffset cpu (s := s)
    have bytes : ∀ i < w.bytes, t.cell (.reg DFT_REG_RDX i) = s.cell (.reg DFT_REG_RAX i) := by
      simpa only [Nat.zero_add] using copied.bytes
    rw [exists_run_iff run]
    exact forall₂_congr fun i hi => by rw [bytes i hi]

/-- CDQE. -/
def cdqe : Instr where
  opcode := .cwde
  dsts := [.reg (.gpr .rax .b8)]
  srcs := [.reg (.gpr .rax .b4)]
  predicate := .none
  pc := 0x401000

/-- MOVSXD of EAX to RAX. -/
def movsxdRaxEax : Instr where
  opcode := .movsxd
  dsts := [.reg (.gpr .rax .b8)]
  srcs := [.reg (.gpr .rax .b4)]
  predicate := .none
  pc := 0x401000

/-- CQO. -/
def cqo : Instr where
  opcode := .cdq
  dsts := [.reg (.gpr .rdx .b8)]
  srcs := [.reg (.gpr .rax .b8)]
  predicate := .none
  pc := 0x401000

theorem cqo_isSignOf : cqo.IsSignOf .b8 := ⟨rfl, rfl⟩

theorem upperTainted_not_topTagged : ¬ upperTainted.TopTagged 8 := by
  intro top
  exact absurd (top 4 (by decide)) (by decide)

/-- With a tainted byte 4 of RAX, CDQE and MOVSXD agree, and CQO does not extend the sign. -/
theorem sign_extensions_agree_iff_cdqe :
    (∃ recs t, runCalls idleApp 4 (insInspectDr idleCpu cdqe) upperTainted = .ok (recs, t) ∧
      ∃ recs' u, runCalls idleApp 4 (insInspectDr idleCpu movsxdRaxEax) upperTainted =
        .ok (recs', u) ∧ Shadow.AgreeOff ∅ u t) ∧
    ¬ ∃ recs t, runCalls idleApp 4 (insInspectDr idleCpu cqo) upperTainted = .ok (recs, t) ∧
      ∀ i < RegWidth.b8.bytes, t.cell (.reg DFT_REG_RDX i) =
        upperTainted.cell (.reg DFT_REG_RAX (RegWidth.b8.bytes - 1)) := by
  obtain ⟨inPlace, sign⟩ := sign_extensions_agree_iff idleApp 4 idleCpu upperTainted
  constructor
  · refine (inPlace .cdqe cdqe movsxdRaxEax ⟨rfl, rfl⟩ ⟨rfl, rfl, rfl⟩).mpr ?_
    have low : ∀ i < 4, upperTainted.cell (.reg DFT_REG_RAX i) = clearedVal := by decide
    exact fun i hi => (low i hi).trans (low 3 (by decide)).symm
  · rw [sign .b8 cqo cqo_isSignOf]
    exact upperTainted_not_topTagged

/-- CQO with a tainted byte 4 of RAX taints byte 4 of RDX, and the top byte of RAX is untainted. -/
theorem cqo_copies :
    ¬ ∀ (app : AppView) (limitOffset : INT32) (cpu : Cpu) (s : Shadow) (w : RegWidth)
      (sign : Instr),
      s.Sound → sign.IsSignOf w →
      ∃ recs t, runCalls app limitOffset (insInspectDr cpu sign) s = .ok (recs, t) ∧
        ∀ i < w.bytes, t.cell (.reg DFT_REG_RDX i) = s.cell (.reg DFT_REG_RAX (w.bytes - 1)) := by
  intro claim
  obtain ⟨recs, t, run, filled⟩ := claim idleApp 4 idleCpu upperTainted .b8 cqo upperTainted_sound
    cqo_isSignOf
  obtain ⟨u, run', copied⟩ := cqo_isSignOf.run idleApp 4 idleCpu (s := upperTainted)
  cases run.symm.trans run'
  have fourth := (copied.bytes 4 (by decide)).symm.trans (filled 4 (by decide))
  exact absurd fourth (by decide)

end LibdftDr
