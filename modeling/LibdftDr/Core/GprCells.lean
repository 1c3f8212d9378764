import LibdftDr.Core.Inserted

/-!
# The part of the register file in use

Of the rows of the register file only those of the sixteen general purpose registers are ever
written, and of a row only the eight bytes of the register: the spare row, the rows of the
other registers and the upper eight bytes of every row keep the tags they were created with.
`insInspectDr_inGprs` says it of the calls that the router inserts.
-/
namespace LibdftDr
open Library

/-- Byte `byte` of row `row` shadows a byte of a general purpose register. -/
structure GprByte (row byte : ℕ) : Prop where
  first : DFT_REG_RDI ≤ row
  last : row ≤ DFT_REG_R15
  byte : byte < 8

/-- The span shadows bytes of a general purpose register. -/
structure OperandSpan (row start n : ℕ) : Prop where
  first : DFT_REG_RDI ≤ row
  last : row ≤ DFT_REG_R15
  bytes : start + n ≤ 8

/-- The registers that a call writes are general purpose, and it stays in their eight bytes. -/
@[simp, grind =] def CleanCall.InGprs : CleanCall → Prop
  | .r2rXfer dr ds _ _ n | .cmovR2r _ dr ds _ _ n | .binaryR2r dr ds _ _ n
  | .shldR2r dr ds _ _ n => OperandSpan dr ds n
  | .rClr r s n | .shiftR r s n | .bswapReg r s n => OperandSpan r s n
  | .movM2r r s _ n | .cmovM2r _ r s _ n | .binaryM2r r s _ n | .movbeM2r r s _ n =>
    OperandSpan r s n
  | .ternaryR2r _ _ n | .ternaryM2r _ n => n ≤ 8
  | .xchgR2r ar as' br bs n => OperandSpan ar as' n ∧ OperandSpan br bs n
  | .xchgM2r _ r s n | .xaddM2r _ r s n => OperandSpan r s n
  | .movzxR2r dr _ _ k n | .movsxR2r dr _ _ k n => OperandSpan dr 0 (max k n)
  | .movzxM2r dr _ k n | .movsxM2r dr _ k n => OperandSpan dr 0 (max k n)
  | .leaProp _ dr _ _ _ _ n => OperandSpan dr 0 n
  | .cmpxchgMem _ _ _ ar as' n => OperandSpan ar as' n
  | .cmpxchgReg dr ds _ _ ar as' n => OperandSpan dr ds n ∧ OperandSpan ar as' n
  | .xaddR2r dr ds sr ss n => OperandSpan dr ds n ∧ OperandSpan sr ss n
  | .movR2m .. | .movClrMem .. | .m2mXfer .. | .binaryR2m .. | .shiftM .. | .movbeR2m ..
  | .cmpR2r .. | .cmpM2r .. | .cmpI2r .. | .cmpR2m .. | .cmpI2m .. | .cmpM2m .. => True

section Spans

variable {r : RegId} {d : Span} {row start n k b : ℕ}

theorem Gpr.row_bounds (g : Gpr) : DFT_REG_RDI ≤ g.row ∧ g.row ≤ DFT_REG_R15 := by
  cases g <;> decide

theorem OperandSpan.gprByte (h : OperandSpan row start n) {row' : ℕ}
    (mem : Cell.reg row' b ∈ regSpan row start n) : GprByte row' b := by
  obtain ⟨rfl, -, hi⟩ := mem_regSpan.mp mem
  exact ⟨h.first, h.last, hi.trans_le h.bytes⟩

/-- A narrower span that starts no later. -/
theorem OperandSpan.mono (h : OperandSpan row start n) {start' n' : ℕ}
    (bytes : start' + n' ≤ 8) : OperandSpan row start' n' := ⟨h.first, h.last, bytes⟩

theorem operandSpan_of_regShadowSpan (h : regShadowSpan r = some d) :
    OperandSpan d.row d.start d.n := by
  have bytes := Span.le_eight h
  cases r with
  | gpr g w =>
    rw [regShadowSpan_gpr] at h
    cases h
    exact ⟨g.row_bounds.1, g.row_bounds.2, bytes⟩
  | high r =>
    rw [regShadowSpan_high] at h
    cases h
    exact ⟨r.full.row_bounds.1, r.full.row_bounds.2, bytes⟩
  | null => simp [regShadowSpan, RegId.regIsGpr] at h
  | other => simp [regShadowSpan, RegId.regIsGpr] at h

/-- A span of at most the register's own width. -/
theorem operandSpan_of_le (h : regShadowSpan r = some d) (hk : k ≤ d.n) :
    OperandSpan d.row d.start k := by
  have span := operandSpan_of_regShadowSpan h
  have := span.bytes
  exact span.mono (by omega)

/-- The start of the row, as the extensions and LEA write it. -/
theorem operandSpan_zero (h : regShadowSpan r = some d) (hk : k ≤ 8) : OperandSpan d.row 0 k :=
  (operandSpan_of_regShadowSpan h).mono (by omega)

theorem ternarySpan_gprByte (hn : n ≤ 8) {row : ℕ} (mem : Cell.reg row b ∈ ternarySpan n) :
    GprByte row b := by
  have rax : ∀ {k}, k ≤ 8 → OperandSpan DFT_REG_RAX 0 k := fun h => ⟨by decide, by decide, by omega⟩
  have rdx : OperandSpan DFT_REG_RDX 0 n := ⟨by decide, by decide, by omega⟩
  unfold ternarySpan at mem
  split_ifs at mem
  · exact (rax (by omega)).gprByte mem
  · obtain mem | mem := mem
    · exact rdx.gprByte mem
    · exact (rax hn).gprByte mem

end Spans

/-- What a call writes of the register file. -/
theorem CleanCall.InGprs.of_writes {c : CleanCall} (h : c.InGprs) {row b : ℕ}
    (mem : Cell.reg row b ∈ c.writes) : GprByte row b := by
  cases c with
  | r2rXfer | cmovR2r | binaryR2r | shldR2r | rClr | shiftR | bswapReg | movM2r | cmovM2r
  | binaryM2r | movbeM2r | movzxR2r | movsxR2r | movzxM2r | movsxM2r | leaProp =>
    exact OperandSpan.gprByte h mem
  | ternaryR2r | ternaryM2r => exact ternarySpan_gprByte h mem
  | xchgR2r | cmpxchgReg | xaddR2r =>
    obtain mem | mem := mem
    · exact h.1.gprByte mem
    · exact h.2.gprByte mem
  | xchgM2r =>
    obtain mem | mem := mem
    · exact OperandSpan.gprByte h mem
    · exact absurd mem reg_not_mem_memSpan
  | cmpxchgMem | xaddM2r =>
    obtain mem | mem := mem
    · exact absurd mem reg_not_mem_memSpan
    · exact OperandSpan.gprByte h mem
  | movR2m | movClrMem | m2mXfer | binaryR2m | shiftM | movbeR2m =>
    exact absurd mem reg_not_mem_memSpan
  | cmpR2r | cmpM2r | cmpI2r | cmpR2m | cmpI2m | cmpM2m => cases mem

section Inserters

variable {cpu : Cpu} {instr : Instr}

theorem insertR2rXfer_inGprs (dst src : RegId) : ∀ c ∈ insertR2rXfer dst src, c.InGprs := by
  grind [insertR2rXfer, operandSpan_of_le]

theorem insertRClr_inGprs (dst : RegId) : ∀ c ∈ insertRClr dst, c.InGprs := by
  grind [insertRClr, operandSpan_of_le]

theorem insertMovM2r_inGprs (dst : RegId) (m : MemRef) :
    ∀ c ∈ insertMovM2r cpu dst m, c.InGprs := by
  grind [insertMovM2r, withMemAddr, operandSpan_of_le]

theorem insertMovR2m_inGprs (m : MemRef) (src : RegId) :
    ∀ c ∈ insertMovR2m cpu m src, c.InGprs := by
  grind [insertMovR2m, withMemAddr]

theorem insertMovClrMem_inGprs (m : MemRef) : ∀ c ∈ insertMovClrMem cpu m, c.InGprs := by
  grind [insertMovClrMem, withMemAddr]

theorem insertM2mXfer_inGprs (d s : MemRef) (n : ℕ) :
    ∀ c ∈ insertM2mXfer cpu d s n, c.InGprs := by
  grind [insertM2mXfer, withMemAddr2]

theorem insertMovLd_inGprs : ∀ c ∈ insertMovLd cpu instr, c.InGprs := by
  grind [insertMovLd, insertR2rXfer_inGprs, insertMovM2r_inGprs]

theorem insertMovSt_inGprs : ∀ c ∈ insertMovSt cpu instr, c.InGprs := by
  grind [insertMovSt, insertMovR2m_inGprs, insertMovClrMem_inGprs, insertR2rXfer_inGprs,
    insertRClr_inGprs]

theorem insertMovImm_inGprs : ∀ c ∈ insertMovImm instr, c.InGprs := by
  grind [insertMovImm, insertRClr_inGprs]

theorem insertXfer_inGprs : ∀ c ∈ insertXfer cpu instr, c.InGprs := by
  grind [insertXfer, insertR2rXfer_inGprs, insertMovM2r_inGprs]

theorem insertBinary_inGprs (opcode : Opcode) :
    ∀ c ∈ insertBinary cpu instr opcode, c.InGprs := by
  unfold insertBinary
  split
  · simp
  · split <;> grind [withMemAddr, insertRClr_inGprs, operandSpan_of_le]

theorem insertExtend_inGprs (sign : Bool) : ∀ c ∈ insertExtend cpu instr sign, c.InGprs := by
  unfold insertExtend
  split
  · next rd o _ hsrc =>
    split
    · next d rs hd =>
      split
      · next s hs =>
        have := Span.le_eight hd
        have := Span.le_eight hs
        have span : OperandSpan d.row 0 (max s.n d.n) := operandSpan_zero hd (by omega)
        cases sign <;> simpa using span
      · simp
    · next d m hd =>
      have := Span.le_eight hd
      have := m.size_le
      have span : OperandSpan d.row 0 (max m.size d.n) := operandSpan_zero hd (by omega)
      grind [withMemAddr]
    · simp
  · simp

theorem insertLea_inGprs : ∀ c ∈ insertLea instr, c.InGprs := by
  unfold insertLea
  split
  · split
    · next d hd =>
      have := Span.le_eight hd
      have span : OperandSpan d.row 0 d.n := operandSpan_zero hd (by omega)
      split_ifs <;> simp [span]
    · simp
  · simp

theorem insertPush_inGprs : ∀ c ∈ insertPush cpu instr, c.InGprs := by
  unfold insertPush
  split
  · simp
  · next mem _ =>
    cases found : instr.srcs.findSome? _ with
    | none => simp
    | some cs =>
      obtain ⟨o, -, ho⟩ := List.exists_of_findSome?_eq_some found
      grind [insertMovR2m_inGprs, insertMovClrMem_inGprs, insertM2mXfer_inGprs]

theorem insertPop_inGprs : ∀ c ∈ insertPop cpu instr, c.InGprs := by
  unfold insertPop
  split
  · simp
  · next mem _ =>
    cases found : instr.dsts.findSome? _ with
    | none => simp
    | some cs =>
      obtain ⟨o, -, ho⟩ := List.exists_of_findSome?_eq_some found
      grind [insertMovM2r_inGprs, insertM2mXfer_inGprs]

theorem insertCmps_inGprs : ∀ c ∈ insertCmps cpu instr, c.InGprs := by
  grind [insertCmps, withMemAddr2]

theorem insertLeave_inGprs : ∀ c ∈ insertLeave cpu instr, c.InGprs := by
  grind [insertLeave, insertR2rXfer_inGprs, insertMovM2r_inGprs]

theorem insertCwdeFamily_inGprs (accum : instr.AccumDst) :
    ∀ c ∈ insertCwdeFamily instr, c.InGprs := by
  unfold insertCwdeFamily
  split
  · next d hd =>
    have := accum d hd
    have span : OperandSpan DFT_REG_RAX (d.sizeInBytes / 2) (d.sizeInBytes / 2) :=
      ⟨by decide, by decide, by omega⟩
    split_ifs <;> simp [span]
  · simp

theorem insertCdqFamily_inGprs (accum : instr.AccumDst) :
    ∀ c ∈ insertCdqFamily instr, c.InGprs := by
  unfold insertCdqFamily
  split
  · next d hd =>
    have := accum d hd
    have span : OperandSpan DFT_REG_RDX 0 d.sizeInBytes := ⟨by decide, by decide, by omega⟩
    split_ifs <;> simp [span]
  · simp

theorem insertMuldiv_inGprs : ∀ c ∈ insertMuldiv cpu instr, c.InGprs := by
  unfold insertMuldiv
  split
  · split
    · next s hs =>
      have := Span.le_eight hs
      grind
    · simp
  · grind [withMemAddr, MemRef.size_le]
  · simp

theorem insertImul_inGprs : ∀ c ∈ insertImul cpu instr, c.InGprs := by
  grind [insertImul, insertMuldiv_inGprs, insertBinary_inGprs]

theorem insertXchg_inGprs : ∀ c ∈ insertXchg cpu instr, c.InGprs := by
  grind [insertXchg, withMemAddr, operandSpan_of_le]

theorem insertCmov_inGprs : ∀ c ∈ insertCmov cpu instr, c.InGprs := by
  unfold insertCmov
  split
  · split
    · simp
    · next d hd =>
      cases found : instr.srcs.findSome? _ with
      | none => simp
      | some cs =>
        obtain ⟨o, -, ho⟩ := List.exists_of_findSome?_eq_some found
        grind [withMemAddr, operandSpan_of_le]
  · simp

theorem insertCmp_inGprs : ∀ c ∈ insertCmp cpu instr, c.InGprs := by
  unfold insertCmp
  split
  · split
    · simp
    · grind [withMemAddr]
  · grind [withMemAddr]
  · simp

theorem insertShift_inGprs : ∀ c ∈ insertShift cpu instr, c.InGprs := by
  grind [insertShift, withMemAddr, operandSpan_of_le]

theorem insertShldShrd_inGprs : ∀ c ∈ insertShldShrd instr, c.InGprs := by
  unfold insertShldShrd
  split
  · split_ifs
    · simp
    · split <;> grind [operandSpan_of_le]
  · simp

theorem insertBswap_inGprs : ∀ c ∈ insertBswap instr, c.InGprs := by
  grind [insertBswap, operandSpan_of_le]

theorem insertMovbe_inGprs : ∀ c ∈ insertMovbe cpu instr, c.InGprs := by
  grind [insertMovbe, withMemAddr, operandSpan_of_le]

theorem insertXadd_inGprs : ∀ c ∈ insertXadd cpu instr, c.InGprs := by
  unfold insertXadd
  split
  · split
    · simp
    · split <;> grind [withMemAddr, operandSpan_of_le]
  · simp

theorem insertMovs_inGprs : ∀ c ∈ insertMovs cpu instr, c.InGprs := by
  grind [insertMovs, insertM2mXfer_inGprs]

theorem insertStos_inGprs : ∀ c ∈ insertStos cpu instr, c.InGprs := by
  grind [insertStos, insertMovR2m_inGprs]

theorem insertLods_inGprs : ∀ c ∈ insertLods cpu instr, c.InGprs := by
  grind [insertLods, insertMovM2r_inGprs]

/-- The registers of CMPXCHG are as wide as its destination. -/
def Instr.OneWidth (instr : Instr) : Prop :=
  ∀ d, instr.dsts.head? = some d → ∀ r ∈ gprRegs instr.srcs, r.sizeInBytes = d.sizeInBytes

theorem insertCmpxchg_inGprs (width : instr.OneWidth) :
    ∀ c ∈ insertCmpxchg cpu instr, c.InGprs := by
  unfold insertCmpxchg
  split
  · simp
  · next o ho =>
    dsimp only
    split
    · next s a foundSrc foundAccum =>
      obtain ⟨accum, haccum, ha⟩ := Option.bind_eq_some_iff.mp foundAccum
      have size : a.n = o.sizeInBytes := by
        rw [(Span.n_eq ha).1]
        exact width o ho accum (List.mem_of_find?_eq_some haccum)
      have pos := (Span.n_eq ha).2
      have count : (if o.sizeInBytes = 0 then s.n else o.sizeInBytes) = a.n := by
        rw [if_neg (by omega), size]
      have span := operandSpan_of_regShadowSpan ha
      rw [count]
      split
      · grind [withMemAddr]
      · next rd _ =>
        split
        · next d hd =>
          have same : d.n = a.n := (Span.n_eq hd).1.trans size.symm
          have dst : OperandSpan d.row d.start a.n := operandSpan_of_le hd same.ge
          simpa using ⟨dst, span⟩
        · simp
      · simp
    · simp

end Inserters

/-- What DynamoRIO's decoder promises of the routed instructions: the accumulator of a sign
extension has at most 64 bits, and CMPXCHG has one operand width. -/
structure Instr.Encoded (instr : Instr) : Prop where
  decoded : instr.Decoded
  cmpxchg : instr.opcode = .cmpxchg → instr.OneWidth

theorem insInspectDr_inGprs {cpu : Cpu} {instr : Instr} (enc : instr.Encoded) :
    ∀ c ∈ insInspectDr cpu instr, c.InGprs := by
  unfold insInspectDr
  cases hop : instr.opcode with
  | movLd => exact insertMovLd_inGprs
  | movSt => exact insertMovSt_inGprs
  | movImm => exact insertMovImm_inGprs
  | cmp => exact insertCmp_inGprs
  | add | and | or | xor | sub | sbb => exact insertBinary_inGprs _
  | movzx | movsx | movsxd => exact insertExtend_inGprs _
  | lea => exact insertLea_inGprs
  | push => exact insertPush_inGprs
  | pop => exact insertPop_inGprs
  | cmps => exact insertCmps_inGprs
  | leave => exact insertLeave_inGprs
  | bsf | bsr => exact insertXfer_inGprs
  | cwde => exact insertCwdeFamily_inGprs (enc.decoded (.inl hop))
  | cdq => exact insertCdqFamily_inGprs (enc.decoded (.inr hop))
  | mul | div | idiv => exact insertMuldiv_inGprs
  | imul => exact insertImul_inGprs
  | xchg => exact insertXchg_inGprs
  | cmovcc => exact insertCmov_inGprs
  | shl | shr | sar | rol | ror | rcl | rcr => exact insertShift_inGprs
  | shld | shrd => exact insertShldShrd_inGprs
  | bswap => exact insertBswap_inGprs
  | movbe => exact insertMovbe_inGprs
  | cmpxchg => exact insertCmpxchg_inGprs (enc.cmpxchg hop)
  | xadd => exact insertXadd_inGprs
  | movs => exact insertMovs_inGprs
  | stos => exact insertStos_inGprs
  | lods => exact insertLods_inGprs
  | other => simp

end LibdftDr
