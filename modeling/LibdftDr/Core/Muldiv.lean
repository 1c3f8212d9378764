import LibdftDr.Core.Places

/-!
# One-operand MUL, IMUL, DIV and IDIV

The explicit operand is the first source that is memory or a register outside the rows of RAX
and RDX: an operand in one of these rows is never found, and nothing is inserted. IMUL is taken
for the one-operand form when it has destinations in both rows, which the byte form has not; it
is treated as an addition to AX. `muldiv_unites_iff` says when the tags still arrive.
-/
namespace LibdftDr
open Library Library.Action

/-! ## The handlers -/

/-- Byte `i` of the operand goes to byte `i` of RDX and of RAX, that of a byte operand to AL and
AH. -/
def spread (val : ℕ → Finset ℕ) (n : ℕ) (m : Cell → Finset ℕ) : Cell → Finset ℕ :=
  if n = 1 then adjoin (.reg DFT_REG_RAX 1) (val 0) (adjoin (.reg DFT_REG_RAX 0) (val 0) m)
  else
    rounds (fun i m =>
      adjoin (.reg DFT_REG_RAX i) (val i) (adjoin (.reg DFT_REG_RDX i) (val i) m)) n m

section Handlers

variable {held : Set (Tag × Finset ℕ)} {m : Cell → Finset ℕ} {val : ℕ → Finset ℕ} {n : ℕ}

theorem srcTag_does {k i : ℕ} {src : Vector Tag k} (hi : i < k) (ht : (src[i], val i) ∈ held) :
    byLabels.Does held m (fun t => {(t, val i)}) m (srcTag src i) := by
  rw [srcTag, dif_pos hi]
  exact View.Does.pure (by simpa using ht)

theorem ternaryCombine_does {k : ℕ} {src : Vector Tag k} (hk : k = n) (hn : n ≤ 8)
    (hsrc : ∀ i, ∀ h : i < k, (src[i], val i) ∈ held) :
    byLabels.Does held m (fun _ => ∅) (spread val n m) (ternaryCombine src n) := by
  have file : ∀ {row i}, row < 19 → i < 8 → InFile row i := fun hr hi =>
    ⟨by rw [GRP_NUM]; omega, by rw [TAGS_PER_GPR]; omega⟩
  unfold ternaryCombine spread
  split_ifs with one
  · refine (srcTag_does (by omega) (hsrc 0 (by omega))).bind fun t =>
      (Meaning.gprUnite_does (file (by decide) (by omega)) (.inr rfl)).bind fun _ => ?_
    exact Meaning.gprUnite_does (file (by decide) (by omega)) (.inl (.inr rfl))
  · refine View.Does.loop (fun i hi m => ?_) m
    refine (srcTag_does (by omega) (hsrc i (by omega))).bind fun t =>
      (Meaning.gprUnite_does (file (by decide) (by omega)) (.inr rfl)).bind fun _ => ?_
    exact Meaning.gprUnite_does (file (by decide) (by omega)) (.inl (.inr rfl))

theorem ternaryR2r_does {row start : ℕ} (h : GprSpan row start n) (hn : n ≤ 8) :
    byLabels.Does held m (fun _ => ∅) (spread (fun i => m (.reg row (start + i))) n m)
      (ternaryR2r row start n) := by
  have width : min n 8 = n := Nat.min_eq_left hn
  refine (View.Does.gather fun i hi => Meaning.gprGet_does (h.inFile (by omega : i < n))).bind
    fun v => ternaryCombine_does width hn fun i hi => ?_
  exact .inr ⟨i, hi, rfl⟩

theorem ternaryM2r_does {addr : ADDRINT} (h : InRange addr n) (hn : n ≤ 8) :
    byLabels.Does held m (fun _ => ∅) (spread (fun i => m (.mem (byteAt addr i))) n m)
      (ternaryM2r addr n) := by
  have width : min n 8 = n := Nat.min_eq_left hn
  refine (View.Does.gather fun i hi => Meaning.getb_does (h i (by omega))).bind
    fun v => ternaryCombine_does width hn fun i hi => ?_
  exact .inr ⟨i, hi, rfl⟩

end Handlers

/-- The bytes of the accumulators that take up byte `i` of an operand of width `w`. -/
def accumCells (w : RegWidth) (i : ℕ) : Set Cell :=
  if w = .b1 then {.reg DFT_REG_RAX 0, .reg DFT_REG_RAX 1}
  else {.reg DFT_REG_RAX i, .reg DFT_REG_RDX i}

/-- One round of `spread` changes its two bytes, each by what it holds itself. -/
theorem spread_local (i : ℕ) (v : Finset ℕ) :
    LocalTo {.reg DFT_REG_RAX i, .reg DFT_REG_RDX i} {.reg DFT_REG_RAX i, .reg DFT_REG_RDX i}
      fun m => adjoin (.reg DFT_REG_RAX i) v (adjoin (.reg DFT_REG_RDX i) v m) where
  frame m c hc := by
    simp only [Set.mem_insert_iff, Set.mem_singleton_iff, not_or] at hc
    simp only [adjoin, Function.update_of_ne hc.1, Function.update_of_ne hc.2]
  reads m m' same c hc := by
    have rax := same (.reg DFT_REG_RAX i) (by simp)
    have rdx := same (.reg DFT_REG_RDX i) (by simp)
    obtain rfl | rfl := hc <;> simp [adjoin, Function.update_apply, rax, rdx]

theorem spread_apply {val : ℕ → Finset ℕ} {w : RegWidth} {m : Cell → Finset ℕ} {i : ℕ} {c : Cell}
    (hi : i < w.bytes) (hc : c ∈ accumCells w i) : spread val w.bytes m c = m c ∪ val i := by
  have rows : DFT_REG_RDX ≠ DFT_REG_RAX := by decide
  unfold accumCells at hc
  unfold spread
  by_cases byte : w = .b1
  · subst byte
    obtain rfl : i = 0 := by simpa [RegWidth.bytes] using hi
    rw [if_pos rfl] at hc
    rw [if_pos (show RegWidth.b1.bytes = 1 from rfl)]
    obtain rfl | rfl := hc <;> simp [adjoin]
  · have wide : w.bytes ≠ 1 := by cases w <;> simp_all [RegWidth.bytes]
    rw [if_neg byte] at hc
    rw [if_neg wide, rounds_apply (fun i _ => spread_local i (val i)) ?_ hi hc]
    · obtain rfl | rfl := hc <;> simp [adjoin, rows, rows.symm]
    · rintro i - j lt c (rfl | rfl) <;> simp [rows, rows.symm] <;> omega

/-! ## The instruction -/

/-- The opcodes with a one-operand form. -/
inductive MulOp where
  | mul | imul | div | idiv
  deriving DecidableEq

namespace MulOp

def opcode : MulOp → Opcode
  | mul => .mul
  | imul => .imul
  | div => .div
  | idiv => .idiv

def divides : MulOp → Bool
  | mul | imul => false
  | div | idiv => true

/-- The destinations as DynamoRIO lists them. -/
def dsts (k : MulOp) (w : RegWidth) : List Opnd :=
  if w = .b1 then
    if k.divides then [.reg (.high .ah), .reg (.gpr .rax .b1)] else [.reg (.gpr .rax .b2)]
  else [.reg (.gpr .rdx w), .reg (.gpr .rax w)]

/-- The implicit sources as DynamoRIO lists them after the operand. -/
def accums (k : MulOp) (w : RegWidth) : List Opnd :=
  if w = .b1 then
    if k.divides then [.reg (.gpr .rax .b2)] else [.reg (.gpr .rax .b1)]
  else if k.divides then [.reg (.gpr .rdx w), .reg (.gpr .rax w)] else [.reg (.gpr .rax w)]

end MulOp

/-- The one-operand form of `k` with operand `p`. -/
structure Instr.IsMuldiv (instr : Instr) (k : MulOp) (p : Place) : Prop where
  opcode : instr.opcode = k.opcode
  dsts : instr.dsts = k.dsts p.width
  srcs : instr.srcs = p.opnd :: k.accums p.width

/-- The operand is a view of RAX or RDX. -/
def Place.inAccums : Place → Bool
  | .reg v => decide (v.full = .rax) || decide (v.full = .rdx)
  | .mem .. => false

section Inserted

variable {cpu : Cpu} {instr : Instr} {k : MulOp} {p : Place}

/-- The implicit sources are passed over. -/
theorem MulOp.accums_skipped {o : Opnd} (h : o ∈ k.accums p.width) :
    ∃ g w, o = .reg (.gpr g w) ∧ (g = .rax ∨ g = .rdx) := by
  unfold MulOp.accums at h
  split_ifs at h <;> simp at h
  · exact ⟨.rax, .b2, h, .inl rfl⟩
  · exact ⟨.rax, .b1, h, .inl rfl⟩
  · obtain h | h := h
    · exact ⟨.rdx, _, h, .inr rfl⟩
    · exact ⟨.rax, _, h, .inl rfl⟩
  · exact ⟨.rax, _, h, .inl rfl⟩

/-- The operand is found unless it is in the rows of the accumulators. -/
theorem Instr.IsMuldiv.explicit (mul : instr.IsMuldiv k p) :
    findExplicitOperand instr = if p.inAccums then none else some p.opnd := by
  unfold findExplicitOperand
  rw [mul.srcs]
  cases p with
  | mem m w size => rfl
  | reg v =>
    split_ifs with accum
    · refine List.find?_eq_none.mpr fun o ho => ?_
      obtain rfl | ho := List.mem_cons.mp ho
      · simp only [Place.inAccums, Bool.or_eq_true, decide_eq_true_eq] at accum
        obtain full | full := accum <;> simp [Place.opnd, full]
      · obtain ⟨g, w, rfl, rfl | rfl⟩ := MulOp.accums_skipped ho <;> simp [RegId.regToPointerSized]
    · simp only [Place.inAccums, Bool.or_eq_true, decide_eq_true_eq, not_or] at accum
      exact List.find?_cons_of_pos (by simp [Place.opnd, accum])

/-- What is inserted for all but the byte form of IMUL. -/
theorem Instr.IsMuldiv.insertMuldiv_eq (mul : instr.IsMuldiv k p) : insertMuldiv cpu instr =
    if p.inAccums then []
    else match p with
      | .reg v => [.ternaryR2r v.full.row v.start v.width.bytes]
      | .mem m w _ => withMemAddr cpu m fun addr => .ternaryM2r addr w.bytes := by
  unfold insertMuldiv
  rw [mul.explicit]
  cases p with
  | reg v =>
    split_ifs with accum
    · rfl
    · simp only [Place.opnd, GprView.regShadowSpan_reg]
      rfl
  | mem m w size =>
    have pos := w.bytes_pos
    have sized : w.bytes ≠ 0 := by omega
    simp [Place.inAccums, Place.opnd, size, sized]

theorem Instr.IsMuldiv.inserted (mul : instr.IsMuldiv k p) : insInspectDr cpu instr =
    if k = .imul ∧ p.width = .b1 then insertBinary cpu instr .imul else insertMuldiv cpu instr := by
  unfold insInspectDr
  rw [mul.opcode]
  cases k with
  | mul | div | idiv => simp [MulOp.opcode]
  | imul =>
    have rax : hasDst instr .rax = true := by
      unfold hasDst
      rw [mul.dsts]
      cases p.width <;> rfl
    have rdx : hasDst instr .rdx = decide (p.width ≠ .b1) := by
      unfold hasDst
      rw [mul.dsts]
      cases p.width <;> rfl
    simp only [MulOp.opcode, insertImul, rax, rdx]
    by_cases byte : p.width = .b1 <;> simp [byte]

/-- The byte form of IMUL adds its operand to AX. -/
theorem Instr.IsMuldiv.insertBinary_eq (mul : instr.IsMuldiv .imul p) (byte : p.width = .b1) :
    insertBinary cpu instr .imul =
      match p with
      | .reg v => [.binaryR2r DFT_REG_RAX 0 v.full.row v.start 1]
      | .mem m _ _ => withMemAddr cpu m fun addr => .binaryM2r DFT_REG_RAX 0 addr 2 := by
  have dst : findDataDst instr = some (.reg (.gpr .rax .b2)) := by
    rw [findDataDst, mul.dsts, byte]
    rfl
  have src : findOtherSrc instr (.reg (.gpr .rax .b2)) = p.opnd := by
    have other : sameDataOpnd p.opnd (.reg (.gpr .rax .b2)) = false := by
      cases p with
      | mem => rfl
      | reg v =>
        have narrow : v.reg ≠ .gpr .rax .b2 := by
          intro e
          have same : v.width.bytes = 2 := by rw [← v.sizeInBytes_reg, e]; rfl
          rw [show v.width = .b1 from byte] at same
          cases same
        simp [sameDataOpnd, Place.opnd, narrow]
    rw [findOtherSrc, mul.srcs, List.find?_cons_of_pos (by simp [other])]
    rfl
  have ax : regShadowSpan (.gpr .rax .b2) = some ⟨DFT_REG_RAX, 0, 2⟩ := rfl
  unfold insertBinary
  simp only [dst, src]
  cases p with
  | mem m w size => simp only [Place.opnd, ax]
  | reg v =>
    have one : v.width.bytes = 1 := by rw [show v.width = .b1 from byte]; rfl
    have zeroing : Opcode.imul.isZeroing = false := rfl
    simp [Place.opnd, ax, zeroing, GprView.span, one]

end Inserted

/-! ## The result -/

/-- The operand's tags have reached the accumulators, and only these have changed. -/
structure Shadow.Multiplied (s t : Shadow) (cpu : Cpu) (p : Place) : Prop where
  bytes : ∀ i < p.width.bytes, ∀ c ∈ accumCells p.width i,
    s.labelsOf (p.cell cpu i) ⊆ t.labelsOf c
  frame : ∀ c, (∀ b, c ≠ .reg DFT_REG_RAX b ∧ c ≠ .reg DFT_REG_RDX b) → t.cell c = s.cell c

/-- The second byte of AX ends with the tag of a byte operand: it held it before, or the next
byte of memory brings it in. -/
def Shadow.ImulByteCovered (s : Shadow) (cpu : Cpu) : Place → Prop
  | .reg v => s.labelsOf (v.cell 0) ⊆ s.labelsOf (.reg DFT_REG_RAX 1)
  | .mem m _ _ => byteAt (cpu.ea m) 1 ≤ lastAddress ∧
      s.labelsOf (.mem (byteAt (cpu.ea m) 0)) ⊆
        s.labelsOf (.reg DFT_REG_RAX 1) ∪ s.labelsOf (.mem (byteAt (cpu.ea m) 1))

/-- An operand that is not looked at, or not as it should be, brings no new tag. -/
def Shadow.MulCovered (s : Shadow) (cpu : Cpu) (k : MulOp) (p : Place) : Prop :=
  if k = .imul ∧ p.width = .b1 then s.ImulByteCovered cpu p
  else p.inAccums = true → ∀ i < p.width.bytes, ∀ c ∈ accumCells p.width i,
    s.labelsOf (p.cell cpu i) ⊆ s.labelsOf c

/-- What MUL and the byte form of IMUL do with a byte operand comes to the same. -/
def Shadow.ImulByteAgrees (s : Shadow) (cpu : Cpu) : Place → Prop
  | .reg v =>
    if (Place.reg v).inAccums then s.labelsOf (v.cell 0) ⊆ s.labelsOf (.reg DFT_REG_RAX 0)
    else s.labelsOf (v.cell 0) ⊆ s.labelsOf (.reg DFT_REG_RAX 1)
  | .mem m _ _ => byteAt (cpu.ea m) 1 ≤ lastAddress ∧
      s.labelsOf (.reg DFT_REG_RAX 1) ∪ s.labelsOf (.mem (byteAt (cpu.ea m) 0)) =
        s.labelsOf (.reg DFT_REG_RAX 1) ∪ s.labelsOf (.mem (byteAt (cpu.ea m) 1))

/-- The rows of the accumulators. -/
def accumRows : Set Cell := {c | ∃ b, c = .reg DFT_REG_RAX b ∨ c = .reg DFT_REG_RDX b}

theorem regSpan_subset_accumRows {row start n : ℕ} (h : row = DFT_REG_RAX ∨ row = DFT_REG_RDX) :
    regSpan row start n ⊆ accumRows := by
  rintro c ⟨i, -, rfl⟩
  obtain rfl | rfl := h
  · exact ⟨_, .inl rfl⟩
  · exact ⟨_, .inr rfl⟩

theorem ternarySpan_subset_accumRows (n : ℕ) : ternarySpan n ⊆ accumRows := by
  unfold ternarySpan
  split_ifs
  · exact regSpan_subset_accumRows (.inl rfl)
  · exact Set.union_subset (regSpan_subset_accumRows (.inr rfl))
      (regSpan_subset_accumRows (.inl rfl))

theorem Shadow.Becomes.multiplied_iff {s t : Shadow} {cpu : Cpu} {p : Place} {D : Set Cell}
    {m : Cell → Finset ℕ} (h : s.Becomes t D m)
    (hD : D ⊆ accumRows) (room : t.InIds) :
    s.Multiplied t cpu p ↔ ∀ i < p.width.bytes, ∀ c ∈ accumCells p.width i,
      s.labelsOf (p.cell cpu i) ⊆ m c := by
  simp only [← h.labels room]
  refine ⟨fun mul => mul.bytes, fun bytes => ⟨bytes, fun c hc => h.le.frame c fun mem => ?_⟩⟩
  obtain ⟨b, rfl | rfl⟩ := hD mem
  · exact (hc b).1 rfl
  · exact (hc b).2 rfl

section Result

variable {instr : Instr} {k : MulOp} {p : Place} {s t : Shadow} (app : AppView)
  (limitOffset : INT32) (cpu : Cpu)

/-- An operand in the rows of the accumulators changes nothing. -/
theorem Instr.IsMuldiv.skip_run (mul : instr.IsMuldiv k p) (wide : ¬ (k = .imul ∧ p.width = .b1))
    (accum : p.inAccums = true) :
    runCalls app limitOffset (insInspectDr cpu instr) s = .ok ([], s) := by
  rw [mul.inserted, if_neg wide, mul.insertMuldiv_eq, if_pos accum]
  rfl

theorem Instr.IsMuldiv.spread_run (mul : instr.IsMuldiv k p)
    (wide : ¬ (k = .imul ∧ p.width = .b1)) (other : p.inAccums = false) (sound : s.Sound)
    (served : p.Served cpu) :
    ∃ t, runCalls app limitOffset (insInspectDr cpu instr) s = .ok ([], t) ∧
      s.Becomes t (ternarySpan p.width.bytes)
        (spread (fun i => s.labelsOf (p.cell cpu i)) p.width.bytes s.labelsOf) := by
  have h8 := p.width.bytes_le
  rw [mul.inserted, if_neg wide, mul.insertMuldiv_eq, other]
  cases p with
  | reg v =>
    exact runCalls_labels rfl (ternaryR2r_does (v.gprSpan h8) h8) ⟨v.gprSpan h8, h8⟩ sound
  | mem m w size =>
    obtain ⟨scratch, inRange⟩ := served
    simp only [Bool.false_eq_true, if_false, withMemAddr_of_scratch scratch]
    exact runCalls_labels rfl (ternaryM2r_does inRange h8) h8 sound

/-- The byte form of IMUL with a register. -/
theorem Instr.IsMuldiv.imul_reg_run {v : GprView} (mul : instr.IsMuldiv .imul (.reg v))
    (byte : v.width = .b1) (sound : s.Sound) :
    ∃ t, runCalls app limitOffset (insInspectDr cpu instr) s = .ok ([], t) ∧
      s.Becomes t (regSpan DFT_REG_RAX 0 1) (join (.reg DFT_REG_RAX 0) (v.cell 0) s.labelsOf) := by
  have ax : GprSpan DFT_REG_RAX 0 1 := GprSpan.of_le (by decide) (by decide)
  have src := v.gprSpan (show 1 ≤ 8 by decide)
  rw [mul.inserted, if_pos ⟨rfl, byte⟩, mul.insertBinary_eq byte]
  exact runCalls_labels rfl (Meaning.binaryR2r_does ax src) ⟨ax, src⟩ sound

/-- The byte form of IMUL with a memory operand takes in the next byte too. -/
theorem Instr.IsMuldiv.imul_mem_run {m : MemRef} {w : RegWidth} {size : m.size = w.bytes}
    (mul : instr.IsMuldiv .imul (.mem m w size)) (byte : w = .b1) (sound : s.Sound)
    (scratch : cpu.scratch = true) (inRange : InRange (cpu.ea m) 2) :
    ∃ t, runCalls app limitOffset (insInspectDr cpu instr) s = .ok ([], t) ∧
      s.Becomes t (regSpan DFT_REG_RAX 0 2)
        (join (.reg DFT_REG_RAX 1) (.mem (byteAt (cpu.ea m) 1))
          (join (.reg DFT_REG_RAX 0) (.mem (byteAt (cpu.ea m) 0)) s.labelsOf)) := by
  have ax : GprSpan DFT_REG_RAX 0 2 := GprSpan.of_le (by decide) (by decide)
  rw [mul.inserted, if_pos ⟨rfl, byte⟩, mul.insertBinary_eq byte]
  simp only [withMemAddr_of_scratch scratch]
  exact runCalls_labels rfl (Meaning.binaryM2r_does ax inRange) ax sound

theorem inRange_two {addr : ADDRINT} (first : byteAt addr 0 ≤ lastAddress)
    (second : byteAt addr 1 ≤ lastAddress) : InRange addr 2 := by
  intro i hi
  obtain rfl | rfl : i = 0 ∨ i = 1 := by omega
  · exact first
  · exact second

theorem Instr.IsMuldiv.imul_mem_reads {m : MemRef} {w : RegWidth} {size : m.size = w.bytes}
    {recs : List Record} (mul : instr.IsMuldiv .imul (.mem m w size)) (byte : w = .b1)
    (sound : s.Sound) (scratch : cpu.scratch = true)
    (run : runCalls app limitOffset (insInspectDr cpu instr) s = .ok (recs, t)) :
    InRange (cpu.ea m) 2 := by
  have bounds : (CleanCall.binaryM2r DFT_REG_RAX 0 (cpu.ea m) 2).InBounds :=
    GprSpan.of_le (by decide) (by decide)
  rw [mul.inserted, if_pos ⟨rfl, byte⟩, mul.insertBinary_eq byte] at run
  simp only [withMemAddr_of_scratch scratch] at run
  exact inRange_iff.mpr (runCalls_reads bounds sound run)

/-- What is asked of the accumulators for a byte operand. -/
theorem forall_accumCells_byte (byte : p.width = .b1) {P : ℕ → Cell → Prop} :
    (∀ i < p.width.bytes, ∀ c ∈ accumCells p.width i, P i c) ↔
      P 0 (.reg DFT_REG_RAX 0) ∧ P 0 (.reg DFT_REG_RAX 1) := by
  rw [byte]
  constructor
  · exact fun h => ⟨h 0 (by decide) _ (.inl rfl), h 0 (by decide) _ (.inr rfl)⟩
  · intro h i hi c hc
    obtain rfl : i = 0 := Nat.lt_one_iff.mp hi
    obtain rfl | rfl : c = .reg DFT_REG_RAX 0 ∨ c = .reg DFT_REG_RAX 1 := hc
    · exact h.1
    · exact h.2

theorem Instr.IsMuldiv.multiplied_iff (mul : instr.IsMuldiv k p) (sound : s.Sound)
    (served : p.Served cpu) (room : RoomAfter app limitOffset (insInspectDr cpu instr) s) :
    (∃ recs t, runCalls app limitOffset (insInspectDr cpu instr) s = .ok (recs, t) ∧
      s.Multiplied t cpu p) ↔ s.MulCovered cpu k p := by
  unfold Shadow.MulCovered
  split_ifs with imul
  · obtain ⟨rfl, byte⟩ := imul
    cases p with
    | reg v =>
      obtain ⟨t, run, becomes⟩ := mul.imul_reg_run app limitOffset cpu byte sound
      rw [exists_run_iff run, becomes.multiplied_iff (regSpan_subset_accumRows (.inl rfl))
        (room _ _ run), forall_accumCells_byte byte]
      simp [join, Shadow.ImulByteCovered, Place.cell]
    | mem m w size =>
      constructor
      · rintro ⟨recs, t, run, multiplied⟩
        have inRange := mul.imul_mem_reads app limitOffset cpu byte sound served.1 run
        obtain ⟨t', run', becomes⟩ :=
          mul.imul_mem_run app limitOffset cpu byte sound served.1 inRange
        cases run.symm.trans run'
        rw [becomes.multiplied_iff (regSpan_subset_accumRows (.inl rfl)) (room _ _ run),
          forall_accumCells_byte byte] at multiplied
        refine ⟨inRange 1 (by decide), ?_⟩
        simpa [join, Place.cell] using multiplied.2
      · rintro ⟨second, covered⟩
        have inRange := inRange_two (served.2 0 w.bytes_pos) second
        obtain ⟨t, run, becomes⟩ := mul.imul_mem_run app limitOffset cpu byte sound served.1 inRange
        refine ⟨_, t, run, ?_⟩
        rw [becomes.multiplied_iff (regSpan_subset_accumRows (.inl rfl)) (room _ _ run),
          forall_accumCells_byte byte]
        simpa [join, Place.cell] using covered
  · cases accum : p.inAccums with
    | true =>
      have run : runCalls app limitOffset (insInspectDr cpu instr) s = _ :=
        mul.skip_run app limitOffset cpu imul accum
      rw [exists_run_iff run, sound.becomes_self.multiplied_iff (Set.empty_subset _) (room _ _ run)]
      simp
    | false =>
      obtain ⟨t, run, becomes⟩ := mul.spread_run app limitOffset cpu imul accum sound served
      rw [exists_run_iff run, becomes.multiplied_iff (ternarySpan_subset_accumRows _)
        (room _ _ run)]
      simp only [Bool.false_eq_true, false_implies, iff_true]
      intro i hi c hc
      rw [spread_apply hi hc]
      exact Finset.subset_union_right

theorem adjoin_eq_iff {d : Cell} {u v : Finset ℕ} {m : Cell → Finset ℕ} :
    (∀ c, adjoin d u m c = adjoin d v m c) ↔ m d ∪ u = m d ∪ v := by
  constructor
  · intro h
    simpa [adjoin] using h d
  · intro h c
    simp only [adjoin, h]

theorem adjoin_eq_self_iff {d : Cell} {v : Finset ℕ} {m : Cell → Finset ℕ} :
    (∀ c, adjoin d v m c = m c) ↔ v ⊆ m d := by
  rw [← Finset.union_eq_left]
  constructor
  · intro h
    simpa [adjoin] using h d
  · intro h c
    simp [adjoin, h]

/-- Both instructions return, and leave the same labels behind. -/
def SameLabels (app : AppView) (limitOffset : INT32) (cpu : Cpu) (instr instr' : Instr)
    (s : Shadow) : Prop :=
  ∃ recs t, runCalls app limitOffset (insInspectDr cpu instr) s = .ok (recs, t) ∧
    ∃ recs' t', runCalls app limitOffset (insInspectDr cpu instr') s = .ok (recs', t') ∧
      ∀ c, t.labelsOf c = t'.labelsOf c

section SameLabels

variable {mulInstr imulInstr : Instr} {v : GprView} {m : MemRef} {w : RegWidth}
  {size : m.size = w.bytes}

theorem mul_not_byteImul : ¬ (MulOp.mul = .imul ∧ p.width = .b1) := by simp

/-- One byte goes to AL and to AH. -/
theorem spread_byte (byte : p.width = .b1) (val : ℕ → Finset ℕ) (l : Cell → Finset ℕ) :
    spread val p.width.bytes l =
      adjoin (.reg DFT_REG_RAX 1) (val 0) (adjoin (.reg DFT_REG_RAX 0) (val 0) l) := by
  rw [byte]
  rfl

/-- Wider than a byte, the two insert the same. -/
theorem mul_imul_agree_wide (mul : mulInstr.IsMuldiv .mul p) (imul : imulInstr.IsMuldiv .imul p)
    (sound : s.Sound) (served : p.Served cpu) (wide : p.width ≠ .b1) :
    SameLabels app limitOffset cpu mulInstr imulInstr s := by
  have wide' : ¬ (MulOp.imul = .imul ∧ p.width = .b1) := fun h => wide h.2
  have same : insInspectDr cpu imulInstr = insInspectDr cpu mulInstr := by
    rw [mul.inserted, imul.inserted, if_neg mul_not_byteImul, if_neg wide', mul.insertMuldiv_eq,
      imul.insertMuldiv_eq]
  have returns : ∃ t, runCalls app limitOffset (insInspectDr cpu mulInstr) s = .ok ([], t) := by
    cases accum : p.inAccums with
    | true => exact ⟨s, mul.skip_run app limitOffset cpu mul_not_byteImul accum⟩
    | false =>
      obtain ⟨t, run, -⟩ :=
        mul.spread_run app limitOffset cpu mul_not_byteImul accum sound served
      exact ⟨t, run⟩
  obtain ⟨t, run⟩ := returns
  exact ⟨[], t, run, [], t, same ▸ run, fun _ => rfl⟩

theorem mul_imul_agree_reg (mul : mulInstr.IsMuldiv .mul (.reg v))
    (imul : imulInstr.IsMuldiv .imul (.reg v)) (sound : s.Sound)
    (byte : (Place.reg v).width = .b1)
    (room : RoomAfter app limitOffset (insInspectDr cpu mulInstr) s)
    (room' : RoomAfter app limitOffset (insInspectDr cpu imulInstr) s) :
    SameLabels app limitOffset cpu mulInstr imulInstr s ↔ s.ImulByteAgrees cpu (.reg v) := by
  obtain ⟨t', run', becomes'⟩ := imul.imul_reg_run app limitOffset cpu byte sound
  have labels' := becomes'.labels (room' _ _ run')
  cases accum : (Place.reg v).inAccums with
  | true =>
    have run : runCalls app limitOffset (insInspectDr cpu mulInstr) s = _ :=
      mul.skip_run app limitOffset cpu mul_not_byteImul accum
    simp only [SameLabels, exists_run_iff run, exists_run_iff run', labels', Shadow.ImulByteAgrees,
      accum, if_true]
    exact (forall_congr' fun c => eq_comm).trans adjoin_eq_self_iff
  | false =>
    have served : (Place.reg v).Served cpu := trivial
    obtain ⟨t, run, becomes⟩ :=
      mul.spread_run app limitOffset cpu mul_not_byteImul accum sound served
    have labels := becomes.labels (room _ _ run)
    rw [spread_byte byte] at labels
    simp only [SameLabels, exists_run_iff run, exists_run_iff run', labels', labels,
      Shadow.ImulByteAgrees, accum, Bool.false_eq_true, if_false]
    refine adjoin_eq_self_iff.trans ?_
    simp [adjoin, Place.cell]

theorem mul_imul_agree_mem (mul : mulInstr.IsMuldiv .mul (.mem m w size))
    (imul : imulInstr.IsMuldiv .imul (.mem m w size)) (sound : s.Sound)
    (served : (Place.mem m w size).Served cpu) (byte : (Place.mem m w size).width = .b1)
    (room : RoomAfter app limitOffset (insInspectDr cpu mulInstr) s)
    (room' : RoomAfter app limitOffset (insInspectDr cpu imulInstr) s) :
    SameLabels app limitOffset cpu mulInstr imulInstr s ↔
      s.ImulByteAgrees cpu (.mem m w size) := by
  obtain ⟨t, run, becomes⟩ := mul.spread_run app limitOffset cpu mul_not_byteImul rfl sound served
  have labels := becomes.labels (room _ _ run)
  rw [spread_byte byte] at labels
  simp only [SameLabels, exists_run_iff run, labels, Shadow.ImulByteAgrees]
  constructor
  · rintro ⟨recs, t', run', same⟩
    have inRange := imul.imul_mem_reads app limitOffset cpu byte sound served.1 run'
    obtain ⟨u, run'', becomes'⟩ := imul.imul_mem_run app limitOffset cpu byte sound served.1
      inRange
    cases run'.symm.trans run''
    simp only [becomes'.labels (room' _ _ run')] at same
    refine ⟨inRange 1 (by decide), ?_⟩
    simpa [adjoin, join, Place.cell] using same (.reg DFT_REG_RAX 1)
  · rintro ⟨second, same⟩
    have inRange := inRange_two (served.2 0 w.bytes_pos) second
    obtain ⟨t', run', becomes'⟩ := imul.imul_mem_run app limitOffset cpu byte sound served.1
      inRange
    refine ⟨_, t', run', fun c => ?_⟩
    rw [becomes'.labels (room' _ _ run')]
    refine adjoin_eq_iff.mpr ?_ c
    simpa [adjoin, join, Place.cell] using same

/-- The runs of MUL and of one-operand IMUL with the same operand. -/
theorem mul_imul_agree_iff (mul : mulInstr.IsMuldiv .mul p)
    (imul : imulInstr.IsMuldiv .imul p) (sound : s.Sound) (served : p.Served cpu)
    (room : RoomAfter app limitOffset (insInspectDr cpu mulInstr) s)
    (room' : RoomAfter app limitOffset (insInspectDr cpu imulInstr) s) :
    SameLabels app limitOffset cpu mulInstr imulInstr s ↔
      (p.width = .b1 → s.ImulByteAgrees cpu p) := by
  by_cases byte : p.width = .b1
  · simp only [byte, true_implies]
    cases p with
    | reg v => exact mul_imul_agree_reg app limitOffset cpu mul imul sound byte room room'
    | mem m w size =>
      exact mul_imul_agree_mem app limitOffset cpu mul imul sound served byte room room'
  · exact iff_of_true (mul_imul_agree_wide app limitOffset cpu mul imul sound served byte)
      fun h => absurd h byte

end SameLabels

end Result

/-- Of a one-operand MUL, IMUL, DIV or IDIV the operand's tags reach the accumulators if and only
if it is covered, and MUL and IMUL come to the same if and only if the operand has more than one
byte or they agree on its one byte. -/
theorem muldiv_unites_iff {cpu : Cpu} {p : Place} {s : Shadow} (app : AppView) (limitOffset : INT32)
    (sound : s.Sound) (served : p.Served cpu) :
    (∀ (k : MulOp) (instr : Instr), instr.IsMuldiv k p →
      RoomAfter app limitOffset (insInspectDr cpu instr) s →
      ((∃ recs t, runCalls app limitOffset (insInspectDr cpu instr) s = .ok (recs, t) ∧
        s.Multiplied t cpu p) ↔ s.MulCovered cpu k p)) ∧
    ∀ mul imul : Instr, mul.IsMuldiv .mul p → imul.IsMuldiv .imul p →
      RoomAfter app limitOffset (insInspectDr cpu mul) s →
      RoomAfter app limitOffset (insInspectDr cpu imul) s →
      ((∃ recs t, runCalls app limitOffset (insInspectDr cpu mul) s = .ok (recs, t) ∧
        ∃ recs' t', runCalls app limitOffset (insInspectDr cpu imul) s = .ok (recs', t') ∧
          ∀ c, t.labelsOf c = t'.labelsOf c) ↔ (p.width = .b1 → s.ImulByteAgrees cpu p)) :=
  ⟨fun _ _ mul room => mul.multiplied_iff app limitOffset cpu sound served room,
    fun _ _ mul imul => mul_imul_agree_iff app limitOffset cpu mul imul sound served⟩

/-- The one-operand form of `k`. -/
def MulOp.of (k : MulOp) (p : Place) : Instr where
  opcode := k.opcode
  dsts := k.dsts p.width
  srcs := p.opnd :: k.accums p.width
  predicate := .none
  pc := 0x401000

theorem MulOp.of_isMuldiv (k : MulOp) (p : Place) : (k.of p).IsMuldiv k p := ⟨rfl, rfl, rfl⟩

/-- Byte 4 of RDX does not hold the tag of byte 4 of RAX. -/
theorem upperTainted_not_covered : ¬ upperTainted.MulCovered idleCpu .mul (.reg64 .rax) := by
  intro covered
  exact upperTainted_rax4_only rfl (covered rfl 4 (by decide) (.reg DFT_REG_RDX 4) (.inr rfl))

theorem mul_room (g : Gpr) (h : g = .rax ∨ g = .rbx) :
    RoomAfter idleApp 4 (insInspectDr idleCpu (MulOp.mul.of (.reg64 g))) upperTainted := by
  obtain rfl | rfl := h
  · exact RoomAfter.of_two (by decide +kernel)
  · exact RoomAfter.of_two (by decide +kernel)

/-- With a tainted byte 4 of RAX, `mul rbx` is right and `mul rax` is not. -/
theorem muldiv_unites_iff_mul :
    (∃ recs t, runCalls idleApp 4 (insInspectDr idleCpu (MulOp.mul.of (.reg64 .rbx))) upperTainted =
      .ok (recs, t) ∧ upperTainted.Multiplied t idleCpu (.reg64 .rbx)) ∧
    ¬ ∃ recs t,
      runCalls idleApp 4 (insInspectDr idleCpu (MulOp.mul.of (.reg64 .rax))) upperTainted =
      .ok (recs, t) ∧ upperTainted.Multiplied t idleCpu (.reg64 .rax) := by
  have served : ∀ g, (Place.reg64 g).Served idleCpu := fun _ => trivial
  constructor
  · refine ((muldiv_unites_iff idleApp 4 upperTainted_sound (served .rbx)).1 .mul _
      (MulOp.of_isMuldiv _ _) (mul_room .rbx (.inr rfl))).mpr ?_
    intro accum
    cases accum
  · rw [(muldiv_unites_iff idleApp 4 upperTainted_sound (served .rax)).1 .mul _
      (MulOp.of_isMuldiv _ _) (mul_room .rax (.inl rfl))]
    exact upperTainted_not_covered

/-- `mul rax` with a tainted byte 4 of RAX leaves RDX untainted. -/
theorem mul_skips_rax :
    ¬ ∀ (cpu : Cpu) (p : Place) (s : Shadow) (app : AppView) (limitOffset : INT32) (k : MulOp)
      (instr : Instr), s.Sound → p.Served cpu → instr.IsMuldiv k p →
      RoomAfter app limitOffset (insInspectDr cpu instr) s →
      ∃ recs t, runCalls app limitOffset (insInspectDr cpu instr) s = .ok (recs, t) ∧
        s.Multiplied t cpu p := by
  intro claim
  have mul := MulOp.of_isMuldiv .mul (.reg64 .rax)
  have room := mul_room .rax (.inl rfl)
  exact upperTainted_not_covered ((mul.multiplied_iff idleApp 4 idleCpu upperTainted_sound trivial
    room).mp (claim _ _ _ _ _ _ _ upperTainted_sound trivial mul room))

end LibdftDr
