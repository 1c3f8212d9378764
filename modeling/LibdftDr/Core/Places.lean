import LibdftDr.Core.Meanings

/-!
# Places

A place is an operand that holds data: a view of a general purpose register or memory of one of
the four operand widths. Its bytes are cells of the shadow. Two operands of one width share a
cell only at the same index, whatever registers they are views of; so a handler that goes
through its operands byte by byte acts on all bytes at once.
-/
namespace LibdftDr
open Library

/-- The low bytes of a general purpose register, or its second byte. -/
inductive GprView where
  | low (g : Gpr) (w : RegWidth)
  | high (r : HighReg)
  deriving DecidableEq

namespace GprView

def reg : GprView → RegId
  | low g w => .gpr g w
  | high r => .high r

def full : GprView → Gpr
  | low g _ => g
  | high r => r.full

def width : GprView → RegWidth
  | low _ w => w
  | high _ => .b1

def start : GprView → ℕ
  | low .. => 0
  | high _ => 1

def span (v : GprView) : Span := ⟨v.full.row, v.start, v.width.bytes⟩

def cell (v : GprView) (i : ℕ) : Cell := .reg v.full.row (v.start + i)

variable {v u : GprView} {i j : ℕ}

@[simp] theorem regShadowSpan_reg (v : GprView) : regShadowSpan v.reg = some v.span := by
  cases v with
  | low g w => exact regShadowSpan_gpr g w
  | high r => exact regShadowSpan_high r

theorem reg_injective {u v : GprView} (h : u.reg = v.reg) : u = v := by
  cases u <;> cases v <;> simp_all [reg]

@[simp] theorem reg_inj : u.reg = v.reg ↔ u = v := ⟨reg_injective, fun h => by rw [h]⟩

@[simp] theorem regIsGpr_reg (v : GprView) : v.reg.regIsGpr = true := by cases v <;> rfl

@[simp] theorem regToPointerSized_reg (v : GprView) :
    v.reg.regToPointerSized = .gpr v.full .b8 := by
  cases v <;> rfl

@[simp] theorem sizeInBytes_reg (v : GprView) : v.reg.sizeInBytes = v.width.bytes := by
  cases v <;> rfl

theorem gprSpan (v : GprView) {n : ℕ} (hn : n ≤ 8) : GprSpan v.full.row v.start n := by
  have start : v.start ≤ 1 := by cases v <;> simp [GprView.start]
  exact GprSpan.of_le (Nat.lt_succ_of_lt v.full.row_lt) (by omega)

theorem row_injective : Function.Injective Gpr.row := by
  intro g h
  cases g <;> cases h <;> decide

theorem cell_eq_iff : u.cell i = v.cell j ↔ u.full = v.full ∧ u.start + i = v.start + j := by
  simp only [cell, Cell.reg.injEq, row_injective.eq_iff]

/-- Views of one width share cells only at the same index. -/
theorem index_eq (width : u.width = v.width) (hi : i < u.width.bytes) (hj : j < u.width.bytes)
    (same : u.cell i = v.cell j) : i = j := by
  obtain ⟨-, start⟩ := cell_eq_iff.mp same
  cases u with
  | low g w =>
    cases v with
    | low => simpa [GprView.start] using start
    | high =>
      obtain rfl : w = .b1 := width
      simp only [GprView.width, RegWidth.bytes] at hi hj
      omega
  | high r =>
    simp only [GprView.width, RegWidth.bytes] at hi hj
    omega

end GprView

theorem withMemAddr_of_scratch {cpu : Cpu} (h : cpu.scratch = true) (m : MemRef)
    (call : ADDRINT → CleanCall) : withMemAddr cpu m call = [call (cpu.ea m)] := if_pos h

/-- An operand that holds data. -/
inductive Place where
  | reg (v : GprView)
  | mem (m : MemRef) (w : RegWidth) (size : m.size = w.bytes)

namespace Place

def opnd : Place → Opnd
  | reg v => .reg v.reg
  | mem m .. => .mem m

def width : Place → RegWidth
  | reg v => v.width
  | mem _ w _ => w

/-- Byte `i` of the operand. -/
def cell (cpu : Cpu) : Place → ℕ → Cell
  | reg v, i => v.cell i
  | mem m .., i => .mem (byteAt (cpu.ea m) i)

/-- A memory operand has an address that `drutil` computes, and lies in user memory. -/
def Served (cpu : Cpu) : Place → Prop
  | reg _ => True
  | mem m w _ => cpu.scratch = true ∧ InRange (cpu.ea m) w.bytes

variable {cpu : Cpu} {p q : Place} {i j : ℕ}

@[simp] theorem sizeInBytes_opnd (p : Place) : p.opnd.sizeInBytes = p.width.bytes := by
  cases p with
  | reg v => exact v.sizeInBytes_reg
  | mem m w size => exact size

theorem byteAt_inj {addr : ADDRINT} (hi : i < 2 ^ 64) (hj : j < 2 ^ 64)
    (h : byteAt addr i = byteAt addr j) : i = j := by
  have same := congrArg BitVec.toNat h
  have := addr.isLt
  simp only [byteAt, BitVec.toNat_add, BitVec.toNat_ofNat] at same
  omega

def isReg : Place → Bool
  | reg _ => true
  | mem .. => false

/-- The operand is the register view `v`. -/
def is : Place → GprView → Bool
  | reg u, v => decide (u = v)
  | mem .., _ => false

theorem is_iff {v : GprView} : p.is v = true ↔ p = .reg v := by
  cases p <;> simp [is]

/-- Two operands of one instruction: of one width, and not both in memory unless the same. -/
structure Beside (p q : Place) : Prop where
  width : p.width = q.width
  one : p = q ∨ p.isReg = true ∨ q.isReg = true

theorem Beside.refl (p : Place) : p.Beside p := ⟨rfl, .inl rfl⟩

theorem Beside.symm (h : p.Beside q) : q.Beside p :=
  ⟨h.width.symm, h.one.elim (fun e => .inl e.symm) fun o => .inr o.symm⟩

/-- The operands of one instruction share cells only at the same index. -/
theorem Beside.index_eq (h : p.Beside q) (hi : i < p.width.bytes) (hj : j < p.width.bytes)
    (same : p.cell cpu i = q.cell cpu j) : i = j := by
  cases p with
  | reg u =>
    cases q with
    | reg v => exact GprView.index_eq h.width hi hj same
    | mem => cases same
  | mem m w size =>
    have := w.bytes_le
    simp only [Place.width] at hi hj
    cases q with
    | reg => cases same
    | mem m' w' size' =>
      obtain e | o | o := h.one
      · cases e
        exact byteAt_inj (by omega) (by omega) (Cell.mem.inj same)
      · cases o
      · cases o

end Place

/-- The 64-bit register `g`. -/
def Place.reg64 (g : Gpr) : Place := .reg (.low g .b8)

/-- A byte that is not tainted does not hold the tag of byte 4 of RAX. -/
theorem upperTainted_rax4_only {c : Cell} (h : upperTainted.cell c = clearedVal) :
    ¬ upperTainted.labelsOf (.reg DFT_REG_RAX 4) ⊆ upperTainted.labelsOf c := by
  rw [(upperTainted_sound.labelsOf_eq_empty c).mpr h, Finset.subset_empty,
    upperTainted_sound.labelsOf_eq_empty]
  decide

/-- Labels in the table, and none in the shadow. -/
def labelled : Shadow := Shadow.new.withSets (Tag.set 0 tagmapAlloc).2

/-- CL carries offset 0 of the input. -/
def countTainted : Shadow := labelled.withGpr DFT_REG_RCX 0 (Tag.set 0 tagmapAlloc).1

theorem countTainted_sound : countTainted.Sound := by
  have paint : Flow Set.univ Set.univ ∅ True (fun _ => ∅)
      (do let t ← setTag 0; gprSet DFT_REG_RCX 0 t) :=
    copy_flow (setTag_flow (Set.mem_univ _)) fun t =>
      gprSet_flow (by decide) (by simp) (Set.mem_univ _)
  have run : (do let t ← setTag 0; gprSet DFT_REG_RCX 0 t : Engine PUnit) Shadow.new =
      .ok (⟨⟩, countTainted) := rfl
  exact (paint.of_ok Shadow.new_sound Shadow.new_sound.within_univ run).2.1

end LibdftDr
