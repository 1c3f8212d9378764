import LibdftDr.Core.Places

/-!
# Binary read-modify-write

The inserter finds the operand that contributes taint as the first source that is not the
destination read back. It does so whatever the order of the sources; but of the seven opcodes
that `DESIGN.md` lists for the family the router has no case for ADC. `rmw_unites_iff` says when
the bytes of the destination get the unions all the same.
-/
namespace LibdftDr
open Library Library.Action

/-! ## The instructions -/

/-- The family as `DESIGN.md` lists it. -/
inductive Rmw where
  | add | sub | and | or | xor | sbb | adc
  deriving DecidableEq

/-- The opcode as the router sees it. -/
def Rmw.opcode : Rmw → Opcode
  | add => .add
  | sub => .sub
  | and => .and
  | or => .or
  | xor => .xor
  | sbb => .sbb
  | adc => .other

/-- The operand that is not the destination. -/
inductive Operand where
  | place (p : Place)
  | imm (v : UINT64)

def Operand.opnd : Operand → Opnd
  | place p => p.opnd
  | imm v => .immed v

/-- It has the width of the destination, and at most one of the two is in memory. -/
def Operand.Fits (o : Operand) (dst : Place) : Prop :=
  ∀ p, o = .place p → p.width = dst.width ∧ (p.isReg = true ∨ dst.isReg = true)

def Operand.Served (cpu : Cpu) (o : Operand) : Prop := ∀ p, o = .place p → p.Served cpu

/-- An instruction of the family, its sources in either order. -/
structure Instr.IsRmw (instr : Instr) (op : Rmw) (dst : Place) (other : Operand) : Prop where
  opcode : instr.opcode = op.opcode
  dsts : instr.dsts = [dst.opnd]
  srcs : instr.srcs = [other.opnd, dst.opnd] ∨ instr.srcs = [dst.opnd, other.opnd]
  fits : other.Fits dst

/-- The two are the same register. -/
def Place.isSameReg : Place → Place → Bool
  | .reg v, .reg u => decide (v = u)
  | _, _ => false

/-- A register with itself, and an opcode for which that is a zeroing idiom. -/
def Rmw.clears (op : Rmw) (dst : Place) : Operand → Bool
  | .place p => op.opcode.isZeroing && dst.isSameReg p
  | .imm _ => false

/-- The calls that unite the bytes of two operands. -/
def uniteCalls (cpu : Cpu) : Place → Place → List CleanCall
  | .reg v, .reg u =>
    [.binaryR2r v.full.row v.start u.full.row u.start (min v.width.bytes u.width.bytes)]
  | .reg v, .mem m _ _ => [.binaryM2r v.full.row v.start (cpu.ea m) v.width.bytes]
  | .mem m _ _, .reg u => [.binaryR2m (cpu.ea m) u.full.row u.start u.width.bytes]
  | .mem .., .mem .. => []

/-- The calls for the six opcodes that are routed. -/
def rmwCalls (cpu : Cpu) (op : Rmw) (dst : Place) : Operand → List CleanCall
  | .imm _ => []
  | .place p => if op.clears dst (.place p) then
      match dst with
      | .reg v => [.rClr v.full.row v.start v.width.bytes]
      | .mem .. => []
    else uniteCalls cpu dst p

section Inserted

variable {cpu : Cpu} {instr : Instr} {op : Rmw} {dst p : Place} {other : Operand}

theorem Place.isSameReg_iff : dst.isSameReg p = true ↔ ∃ v, dst = .reg v ∧ p = .reg v := by
  cases dst <;> cases p <;> simp [Place.isSameReg, eq_comm]

theorem Rmw.routed (op : Rmw) (h : instr.opcode = op.opcode) :
    insInspectDr cpu instr = if op = .adc then [] else insertBinary cpu instr op.opcode := by
  cases op <;> simp [insInspectDr, h, Rmw.opcode]

theorem Instr.IsRmw.dataDst (rmw : instr.IsRmw op dst other) :
    findDataDst instr = some dst.opnd := by
  rw [findDataDst, rmw.dsts]
  cases dst with
  | reg v => simp [Place.opnd, Opnd.isMemoryReference, Opnd.isGprReg]
  | mem => rfl

/-- Operands that are not both in memory are told apart unless they are the same register. -/
theorem sameDataOpnd_opnd (one : p.isReg = true ∨ dst.isReg = true) :
    sameDataOpnd p.opnd dst.opnd = dst.isSameReg p := by
  cases p with
  | reg u =>
    cases dst with
    | reg v => simp [sameDataOpnd, Place.opnd, Place.isSameReg, eq_comm]
    | mem => rfl
  | mem =>
    cases dst with
    | reg => rfl
    | mem => simp [Place.isReg] at one

theorem sameDataOpnd_self (p : Place) : sameDataOpnd p.opnd p.opnd = true := by
  cases p <;> simp [sameDataOpnd, Place.opnd]

@[simp] theorem Place.isImmed_opnd (p : Place) : p.opnd.isImmed = false := by cases p <;> rfl

/-- The other source is found in either order. -/
theorem Instr.IsRmw.otherSrc (rmw : instr.IsRmw op dst other) :
    findOtherSrc instr dst.opnd = other.opnd := by
  have self := sameDataOpnd_self dst
  cases other with
  | imm v =>
    have carries : (Opnd.immed v).isImmed = true := rfl
    obtain h | h := rmw.srcs <;> simp [findOtherSrc, h, Operand.opnd, carries, self]
  | place p =>
    have same := sameDataOpnd_opnd (rmw.fits p rfl).2
    cases found : dst.isSameReg p with
    | false =>
      rw [found] at same
      obtain h | h := rmw.srcs <;> simp [findOtherSrc, h, Operand.opnd, self, same]
    | true =>
      rw [found] at same
      obtain ⟨v, rfl, rfl⟩ := Place.isSameReg_iff.mp found
      obtain h | h := rmw.srcs <;> simp [findOtherSrc, h, Operand.opnd, same]

theorem Instr.IsRmw.inserted (rmw : instr.IsRmw op dst other) (served : dst.Served cpu)
    (served' : other.Served cpu) :
    insInspectDr cpu instr = if op = .adc then [] else rmwCalls cpu op dst other := by
  rw [op.routed rmw.opcode]
  split_ifs
  · rfl
  rw [insertBinary, rmw.dataDst]
  simp only [rmw.otherSrc]
  cases other with
  | imm v => cases dst <;> rfl
  | place p =>
    have one := (rmw.fits p rfl).2
    cases dst with
    | reg v =>
      cases p with
      | reg u =>
        have same : decide (v.reg = u.reg) = decide (v = u) := decide_eq_decide.mpr GprView.reg_inj
        simp only [Operand.opnd, Place.opnd, rmwCalls, Rmw.clears, Place.isSameReg, same,
          GprView.regShadowSpan_reg, insertRClr]
        split_ifs with clears
        · exact (if_pos clears).symm
        · exact (if_neg clears).symm
      | mem m w size =>
        have scratch := (served' (.mem m w size) rfl).1
        simp only [Operand.opnd, Place.opnd, rmwCalls, Rmw.clears, Place.isSameReg, Bool.and_false,
          GprView.regShadowSpan_reg, withMemAddr_of_scratch scratch]
        rfl
    | mem m w size =>
      cases p with
      | reg u =>
        simp only [Operand.opnd, Place.opnd, rmwCalls, Rmw.clears, Place.isSameReg, Bool.and_false,
          GprView.regShadowSpan_reg, withMemAddr_of_scratch served.1]
        rfl
      | mem => simp [Place.isReg] at one

end Inserted

/-! ## The result -/

/-- What byte `i` of the destination is to hold. -/
def Shadow.rmwLabels (s : Shadow) (cpu : Cpu) (op : Rmw) (dst : Place) (i : ℕ) :
    Operand → Finset ℕ
  | .imm _ => s.labelsOf (dst.cell cpu i)
  | .place p => if op.clears dst (.place p) then ∅
    else s.labelsOf (dst.cell cpu i) ∪ s.labelsOf (p.cell cpu i)

/-- `c` is in the upper half of the register that a 32-bit destination is part of. -/
def Place.InUpperHalf (dst : Place) (c : Cell) : Prop :=
  ∃ g i, dst = .reg (.low g .b4) ∧ 4 ≤ i ∧ c = .reg g.row i

/-- The destination holds what it is to hold, and nothing else has changed. -/
structure Shadow.Modified (s t : Shadow) (cpu : Cpu) (op : Rmw) (dst : Place) (other : Operand) :
    Prop where
  bytes : ∀ i < dst.width.bytes, t.labelsOf (dst.cell cpu i) = s.rmwLabels cpu op dst i other
  frame : ∀ c, (∀ i < dst.width.bytes, c ≠ dst.cell cpu i) → ¬ dst.InUpperHalf c →
    t.cell c = s.cell c

/-- For ADC the destination holds the tags of the other operand already. -/
def Shadow.AdcCovered (s : Shadow) (cpu : Cpu) (op : Rmw) (dst : Place) (other : Operand) : Prop :=
  op = .adc → ∀ p, other = .place p → ∀ i < dst.width.bytes,
    s.labelsOf (p.cell cpu i) ⊆ s.labelsOf (dst.cell cpu i)

section Result

variable {cpu : Cpu} {instr : Instr} {op : Rmw} {dst p : Place} {other : Operand} {s t : Shadow}
  {app : AppView} {limitOffset : INT32}

/-- The bytes of an operand. -/
def Place.cells (cpu : Cpu) (p : Place) : Set Cell := {c | ∃ i < p.width.bytes, c = p.cell cpu i}

/-- The bytes of two operands united. -/
def unites (cpu : Cpu) (dst p : Place) (m : Cell → Finset ℕ) : Cell → Finset ℕ :=
  rounds (fun i => join (dst.cell cpu i) (p.cell cpu i)) dst.width.bytes m

theorem unites_apply (beside : dst.Beside p) {m : Cell → Finset ℕ} {i : ℕ}
    (hi : i < dst.width.bytes) :
    unites cpu dst p m (dst.cell cpu i) = m (dst.cell cpu i) ∪ m (p.cell cpu i) := by
  refine joins_apply (fun i hi j lt => ⟨fun same => ?_, fun same => ?_⟩) hi
  · have := beside.index_eq (by omega) hi same
    omega
  · have := (Place.Beside.refl dst).index_eq (by omega) hi same
    omega

variable (app limitOffset) in
theorem uniteCalls_run (beside : dst.Beside p) (one : p.isReg = true ∨ dst.isReg = true)
    (sound : s.Sound) (served : dst.Served cpu) (served' : p.Served cpu) :
    ∃ t, runCalls app limitOffset (uniteCalls cpu dst p) s = .ok ([], t) ∧
      s.Becomes t (dst.cells cpu) (unites cpu dst p s.labelsOf) := by
  have h8 := dst.width.bytes_le
  have width := beside.width
  cases dst with
  | reg v =>
    have hd := v.gprSpan h8
    cases p with
    | reg u =>
      have hs := u.gprSpan h8
      have min : min v.width.bytes u.width.bytes = v.width.bytes := by
        rw [show v.width = u.width from width, min_self]
      simp only [uniteCalls, min]
      exact runCalls_labels rfl (Meaning.binaryR2r_does hd hs) ⟨hd, hs⟩ sound
    | mem m w size =>
      obtain rfl : v.width = w := width
      exact runCalls_labels rfl (Meaning.binaryM2r_does hd served'.2) hd sound
  | mem m w size =>
    cases p with
    | reg u =>
      obtain rfl : w = u.width := width
      have hs := u.gprSpan h8
      exact runCalls_labels rfl (Meaning.binaryR2m_does hs served.2) hs sound
    | mem => simp [Place.isReg] at one

variable (cpu app limitOffset) in
/-- An idiom that zeroes a register. -/
theorem rClr_run (v : GprView) (sound : s.Sound) :
    ∃ t, runCalls app limitOffset [.rClr v.full.row v.start v.width.bytes] s = .ok ([], t) ∧
      s.Becomes t ((Place.reg v).cells cpu)
        (rounds (fun i m => Function.update m (v.cell i) ∅) v.width.bytes s.labelsOf) := by
  have h := v.gprSpan v.width.bytes_le
  exact runCalls_labels rfl (Meaning.rClr_does h) h sound

/-- What follows for a run whose labels are known. -/
theorem Shadow.Becomes.modified {m : Cell → Finset ℕ} (h : s.Becomes t (dst.cells cpu) m)
    (room : t.InIds)
    (bytes : ∀ i < dst.width.bytes, m (dst.cell cpu i) = s.rmwLabels cpu op dst i other) :
    s.Modified t cpu op dst other := by
  refine ⟨fun i hi => (h.labels room _).trans (bytes i hi), fun c hc _ => h.le.frame c ?_⟩
  rintro ⟨i, hi, rfl⟩
  exact hc i hi rfl

/-- The six opcodes that are routed do what they are to do. -/
theorem rmwCalls_modify (fits : other.Fits dst) (sound : s.Sound) (served : dst.Served cpu)
    (served' : other.Served cpu)
    (room : RoomAfter app limitOffset (rmwCalls cpu op dst other) s) :
    ∃ recs t, runCalls app limitOffset (rmwCalls cpu op dst other) s = .ok (recs, t) ∧
      s.Modified t cpu op dst other := by
  cases other with
  | imm v => exact ⟨[], s, rfl, fun _ _ => rfl, fun _ _ _ => rfl⟩
  | place p =>
    obtain ⟨width, one⟩ := fits p rfl
    have labels : ∀ i, s.rmwLabels cpu op dst i (.place p) = if op.clears dst (.place p) then ∅
        else s.labelsOf (dst.cell cpu i) ∪ s.labelsOf (p.cell cpu i) := fun _ => rfl
    cases clears : op.clears dst (.place p) with
    | true =>
      obtain ⟨v, rfl, rfl⟩ := Place.isSameReg_iff.mp (Bool.and_eq_true_iff.mp clears).2
      have calls : rmwCalls cpu op (.reg v) (.place (.reg v)) =
          [.rClr v.full.row v.start v.width.bytes] := if_pos clears
      obtain ⟨t, run, becomes⟩ := rClr_run cpu app limitOffset v sound
      rw [← calls] at run
      refine ⟨[], t, run, becomes.modified (room _ _ run) fun i hi => ?_⟩
      rw [labels, clears, if_pos rfl]
      exact fills_apply hi
    | false =>
      have calls : rmwCalls cpu op dst (.place p) = uniteCalls cpu dst p := by
        simp [rmwCalls, clears]
      have beside : dst.Beside p := ⟨width.symm, .inr one.symm⟩
      obtain ⟨t, run, becomes⟩ := uniteCalls_run app limitOffset beside one
        sound served (served' p rfl)
      rw [← calls] at run
      refine ⟨[], t, run, becomes.modified (room _ _ run) fun i hi => ?_⟩
      rw [labels, clears, if_neg Bool.false_ne_true]
      exact unites_apply beside hi

theorem Instr.IsRmw.modified_iff (rmw : instr.IsRmw op dst other) (sound : s.Sound)
    (served : dst.Served cpu) (served' : other.Served cpu)
    (room : RoomAfter app limitOffset (insInspectDr cpu instr) s) :
    (∃ recs t, runCalls app limitOffset (insInspectDr cpu instr) s = .ok (recs, t) ∧
      s.Modified t cpu op dst other) ↔ s.AdcCovered cpu op dst other := by
  rw [rmw.inserted served served'] at room ⊢
  by_cases adc : op = .adc
  · subst adc
    have run : runCalls app limitOffset
        (if Rmw.adc = .adc then [] else rmwCalls cpu .adc dst other) s =
        .ok ([], s) := rfl
    rw [exists_run_iff run]
    have never : ∀ p, Rmw.adc.clears dst (.place p) = false := fun _ => rfl
    constructor
    · rintro h _ p rfl i hi
      have held := h.bytes i hi
      rw [Shadow.rmwLabels, never, if_neg Bool.false_ne_true] at held
      rw [held]
      exact Finset.subset_union_right
    · refine fun covered => ⟨fun i hi => ?_, fun _ _ _ => rfl⟩
      cases other with
      | imm v => rfl
      | place p =>
        rw [Shadow.rmwLabels, never, if_neg Bool.false_ne_true]
        exact (Finset.union_eq_left.mpr (covered rfl p rfl i hi)).symm
  · rw [if_neg adc] at room ⊢
    exact iff_of_true (rmwCalls_modify rmw.fits sound served served' room) fun h => absurd h adc

end Result

/-- An instruction of the family unites its operands byte by byte, or zeroes its destination, if
and only if it is not ADC or the destination holds the tags of the other operand already. -/
theorem rmw_unites_iff {cpu : Cpu} {instr : Instr} {op : Rmw} {dst : Place} {other : Operand}
    {s : Shadow} (app : AppView) (limitOffset : INT32) (rmw : instr.IsRmw op dst other)
    (sound : s.Sound) (served : dst.Served cpu) (served' : other.Served cpu)
    (room : RoomAfter app limitOffset (insInspectDr cpu instr) s) :
    (∃ recs t, runCalls app limitOffset (insInspectDr cpu instr) s = .ok (recs, t) ∧
      s.Modified t cpu op dst other) ↔ s.AdcCovered cpu op dst other :=
  rmw.modified_iff sound served served' room

/-- `op rbx, rax`. -/
def rmwRbxRax (op : Rmw) : Instr where
  opcode := op.opcode
  dsts := [.reg (.gpr .rbx .b8)]
  srcs := [.reg (.gpr .rax .b8), .reg (.gpr .rbx .b8)]
  predicate := .none
  pc := 0x401000

theorem rmwRbxRax_isRmw (op : Rmw) :
    (rmwRbxRax op).IsRmw op (Place.reg64 .rbx) (.place (Place.reg64 .rax)) := by
  refine ⟨rfl, rfl, .inl rfl, ?_⟩
  rintro p ⟨⟩
  exact ⟨rfl, .inl rfl⟩

theorem reg64_served (cpu : Cpu) (g : Gpr) : (Operand.place (Place.reg64 g)).Served cpu := by
  rintro p ⟨⟩
  trivial

theorem rmwRbxRax_room (op : Rmw) (h : op = .add ∨ op = .adc) :
    RoomAfter idleApp 4 (insInspectDr idleCpu (rmwRbxRax op)) upperTainted := by
  obtain rfl | rfl := h
  · exact RoomAfter.of_two (by decide +kernel)
  · exact RoomAfter.of_two (by decide +kernel)

/-- Byte 4 of RBX does not hold the tag of byte 4 of RAX. -/
theorem upperTainted_not_adcCovered :
    ¬ upperTainted.AdcCovered idleCpu .adc (Place.reg64 .rbx) (.place (Place.reg64 .rax)) := by
  intro covered
  exact upperTainted_rax4_only rfl (covered rfl _ rfl 4 (by decide))

/-- With a tainted byte 4 of RAX, `add rbx, rax` is right and `adc rbx, rax` is not. -/
theorem rmw_unites_iff_rbx :
    (∃ recs t, runCalls idleApp 4 (insInspectDr idleCpu (rmwRbxRax .add)) upperTainted =
      .ok (recs, t) ∧
      upperTainted.Modified t idleCpu .add (Place.reg64 .rbx) (.place (Place.reg64 .rax))) ∧
    ¬ ∃ recs t, runCalls idleApp 4 (insInspectDr idleCpu (rmwRbxRax .adc)) upperTainted =
      .ok (recs, t) ∧
      upperTainted.Modified t idleCpu .adc (Place.reg64 .rbx) (.place (Place.reg64 .rax)) := by
  have other := reg64_served idleCpu .rax
  constructor
  · exact (rmw_unites_iff idleApp 4 (rmwRbxRax_isRmw .add) upperTainted_sound trivial other
      (rmwRbxRax_room .add (.inl rfl))).mpr fun h => nomatch h
  · exact fun unites => upperTainted_not_adcCovered
      ((rmw_unites_iff idleApp 4 (rmwRbxRax_isRmw .adc) upperTainted_sound trivial other
        (rmwRbxRax_room .adc (.inr rfl))).mp unites)

/-- `adc rbx, rax` with a tainted byte 4 of RAX leaves RBX untainted. -/
theorem adc_not_routed :
    ¬ ∀ (cpu : Cpu) (instr : Instr) (op : Rmw) (dst : Place) (other : Operand) (s : Shadow)
      (app : AppView) (limitOffset : INT32), instr.IsRmw op dst other → s.Sound →
      dst.Served cpu → other.Served cpu →
      RoomAfter app limitOffset (insInspectDr cpu instr) s →
      ∃ recs t, runCalls app limitOffset (insInspectDr cpu instr) s = .ok (recs, t) ∧
        s.Modified t cpu op dst other := by
  intro claim
  have rmw := rmwRbxRax_isRmw .adc
  have other := reg64_served idleCpu .rax
  have room := rmwRbxRax_room .adc (.inr rfl)
  have unites := claim _ _ _ _ _ _ _ _ rmw upperTainted_sound trivial other room
  exact upperTainted_not_adcCovered ((rmw.modified_iff upperTainted_sound trivial other room).mp
    unites)

end LibdftDr
