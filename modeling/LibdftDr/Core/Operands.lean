import LibdftDr.Core.CleanCall

/-!
# Instructions as DynamoRIO decodes them

Registers, operands and opcodes, as far as the router looks at them, and the map from a
register to its span of the register file. `Cpu` is what the inserted code reads of the
application when the instruction executes.
-/
namespace LibdftDr

inductive Gpr where
  | rdi | rsi | rbp | rsp | rbx | rdx | rcx | rax
  | r8 | r9 | r10 | r11 | r12 | r13 | r14 | r15
  deriving DecidableEq

/-- The width of a view of a general purpose register, in bytes. -/
inductive RegWidth where
  | b1 | b2 | b4 | b8
  deriving DecidableEq

def RegWidth.bytes : RegWidth → ℕ
  | .b1 => 1
  | .b2 => 2
  | .b4 => 4
  | .b8 => 8

inductive HighReg where
  | ah | bh | ch | dh
  deriving DecidableEq

def HighReg.full : HighReg → Gpr
  | .ah => .rax
  | .bh => .rbx
  | .ch => .rcx
  | .dh => .rdx

/-- `reg_id_t`; `other` are the vector, x87, segment and control registers. -/
inductive RegId where
  | gpr (g : Gpr) (w : RegWidth)
  | high (r : HighReg)
  | null
  | other (id size : ℕ)
  deriving DecidableEq

namespace RegId

def regIsGpr : RegId → Bool
  | gpr .. | high _ => true
  | null | other .. => false

def regToPointerSized : RegId → RegId
  | gpr g _ => gpr g .b8
  | high r => gpr r.full .b8
  | r => r

/-- `opnd_size_in_bytes(reg_get_size(reg))`. -/
def sizeInBytes : RegId → ℕ
  | gpr _ w => w.bytes
  | high _ => 1
  | null => 0
  | other _ size => size

end RegId

def Gpr.row : Gpr → ℕ
  | .rdi => DFT_REG_RDI
  | .rsi => DFT_REG_RSI
  | .rbp => DFT_REG_RBP
  | .rsp => DFT_REG_RSP
  | .rbx => DFT_REG_RBX
  | .rdx => DFT_REG_RDX
  | .rcx => DFT_REG_RCX
  | .rax => DFT_REG_RAX
  | .r8 => DFT_REG_R8
  | .r9 => DFT_REG_R9
  | .r10 => DFT_REG_R10
  | .r11 => DFT_REG_R11
  | .r12 => DFT_REG_R12
  | .r13 => DFT_REG_R13
  | .r14 => DFT_REG_R14
  | .r15 => DFT_REG_R15

/-- `reg_indx_dr`. -/
def regIndxDr (reg : RegId) : ℕ :=
  match reg.regToPointerSized with
  | .gpr g _ => g.row
  | _ => GRP_NUM

structure Span where
  row : ℕ
  start : ℕ
  n : ℕ

/-- `none` where the source returns false. The high-byte registers are byte 1 of their row. -/
def regShadowSpan (reg : RegId) : Option Span :=
  if !reg.regIsGpr then none
  else if regIndxDr reg = GRP_NUM then none
  else
    match reg with
    | .high _ => some ⟨regIndxDr reg, 1, 1⟩
    | _ => some ⟨regIndxDr reg, 0, reg.sizeInBytes⟩

/-- The spare row stands for an absent or non-general register. -/
def addrRegSpan (reg : RegId) : ℕ × ℕ :=
  match regShadowSpan reg with
  | some sp => (sp.row, sp.start)
  | none => (GRP_NUM, 0)

/-- A memory operand. The routed instructions access at most eight bytes; the size is 0 for an
operand that is only an address (LEA). -/
structure MemRef where
  size : ℕ
  baseDisp : Bool
  base : RegId
  index : RegId
  scale : ℕ
  disp : INT32
  size_le : size ≤ 8

inductive Opnd where
  | reg (r : RegId)
  | immed (v : UINT64)
  | mem (m : MemRef)
  | other

namespace Opnd

def isGprReg : Opnd → Bool
  | reg r => r.regIsGpr
  | _ => false

def isMemoryReference : Opnd → Bool
  | mem _ => true
  | _ => false

def isImmed : Opnd → Bool
  | immed _ => true
  | _ => false

/-- `opnd_size_in_bytes(opnd_get_size(o))`. -/
def sizeInBytes : Opnd → ℕ
  | reg r => r.sizeInBytes
  | mem m => m.size
  | _ => 0

end Opnd

/-- `OP_*`; the sixteen CMOVcc are one, told apart by their predicate. -/
inductive Opcode where
  | movLd | movSt | movImm | cmp
  | add | and | or | xor | sub | sbb
  | movzx | movsx | movsxd | lea | push | pop | cmps | leave | bsf | bsr | cwde | cdq
  | mul | div | idiv | imul | xchg | cmovcc
  | shl | shr | sar | rol | ror | rcl | rcr | shld | shrd
  | bswap | movbe | cmpxchg | xadd | movs | stos | lods | other
  deriving DecidableEq

structure Instr where
  opcode : Opcode
  dsts : List Opnd
  srcs : List Opnd
  predicate : Pred
  pc : ADDRINT

/-- The application when the instruction executes. `scratch` is whether `drreg` and `drutil`
could serve the address computation; without it the inserters insert nothing. -/
structure Cpu where
  gpr : Gpr → UINT64
  ea : MemRef → ADDRINT
  scratch : Bool

/-- The value of `reg_val_opnd(reg)`: always the 64-bit parent. -/
def Cpu.regVal (cpu : Cpu) (reg : RegId) : UINT64 :=
  match reg.regToPointerSized with
  | .gpr g _ => cpu.gpr g
  | _ => 0

/-! ## Spans -/

theorem Gpr.row_lt (g : Gpr) : g.row < GRP_NUM := by cases g <;> decide

theorem RegWidth.bytes_le (w : RegWidth) : w.bytes ≤ 8 := by cases w <;> decide

theorem regShadowSpan_gpr (g : Gpr) (w : RegWidth) :
    regShadowSpan (.gpr g w) = some ⟨g.row, 0, w.bytes⟩ := by
  have known : regIndxDr (.gpr g w) ≠ GRP_NUM := g.row_lt.ne
  simp only [regShadowSpan, RegId.regIsGpr, Bool.not_true, Bool.false_eq_true, if_false, known]
  rfl

theorem regShadowSpan_high (r : HighReg) :
    regShadowSpan (.high r) = some ⟨r.full.row, 1, 1⟩ := by
  have known : regIndxDr (.high r) ≠ GRP_NUM := r.full.row_lt.ne
  simp only [regShadowSpan, RegId.regIsGpr, Bool.not_true, Bool.false_eq_true, if_false, known]
  rfl

theorem RegWidth.bytes_pos (w : RegWidth) : 0 < w.bytes := by cases w <;> decide

/-- A span ends with the register's own bytes, except that a high byte is the second. -/
theorem regShadowSpan_bounds {r : RegId} {sp : Span} (h : regShadowSpan r = some sp) :
    sp.row < GRP_NUM ∧ sp.start ≤ 1 ∧ sp.start + sp.n ≤ max 2 r.sizeInBytes ∧
      sp.start + sp.n ≤ 8 := by
  cases r with
  | gpr g w =>
    rw [regShadowSpan_gpr] at h
    cases h
    refine ⟨g.row_lt, by simp, ?_, ?_⟩
    · simp [RegId.sizeInBytes]
    · simpa using w.bytes_le
  | high r =>
    rw [regShadowSpan_high] at h
    cases h
    exact ⟨r.full.row_lt, by simp, by simp, by simp⟩
  | null => simp [regShadowSpan, RegId.regIsGpr] at h
  | other => simp [regShadowSpan, RegId.regIsGpr] at h

theorem addrRegSpan_bounds (r : RegId) :
    (addrRegSpan r).1 < GRP_NUM + 1 ∧ (addrRegSpan r).2 ≤ 1 := by
  unfold addrRegSpan
  cases h : regShadowSpan r with
  | none => exact ⟨by decide, by decide⟩
  | some sp =>
    obtain ⟨row, start, -⟩ := regShadowSpan_bounds h
    exact ⟨Nat.lt_succ_of_lt row, start⟩

end LibdftDr
