import LibdftDr.Core.Compare

/-!
# Clean calls

`CleanCall` lists the handlers that the instrumentation inserts, with their arguments at run
time. `writes` is the destination of a call, explicit and implicit; `reads` are the addresses
whose shadow it looks up. `CleanCall.flow` joins the theorems about the handlers.
-/
namespace LibdftDr
open Library

/-- What the calls see of the application besides their arguments. -/
structure AppView where
  mem : AppMem
  xflags : UINT64

inductive Record where
  | cmp (o : CmpRecord)
  | lea (o : LeaRecord)

inductive CleanCall where
  | r2rXfer (dstRow dstStart srcRow srcStart n : ℕ)
  | rClr (row start n : ℕ)
  | movM2r (row start : ℕ) (addr : ADDRINT) (n : ℕ)
  | movR2m (addr : ADDRINT) (row start n : ℕ)
  | movClrMem (addr : ADDRINT) (n : ℕ)
  | m2mXfer (dstAddr srcAddr : ADDRINT) (n : ℕ)
  | ternaryR2r (sRow sStart n : ℕ)
  | ternaryM2r (addr : ADDRINT) (n : ℕ)
  | xchgR2r (aRow aStart bRow bStart n : ℕ)
  | xchgM2r (addr : ADDRINT) (row start n : ℕ)
  | cmovR2r (pred : Pred) (dRow dStart sRow sStart n : ℕ)
  | cmovM2r (pred : Pred) (dRow dStart : ℕ) (addr : ADDRINT) (n : ℕ)
  | binaryR2r (dRow dStart sRow sStart n : ℕ)
  | binaryM2r (dRow dStart : ℕ) (addr : ADDRINT) (n : ℕ)
  | binaryR2m (addr : ADDRINT) (sRow sStart n : ℕ)
  | movzxR2r (dRow sRow sStart srcn dstn : ℕ)
  | movzxM2r (dRow : ℕ) (addr : ADDRINT) (srcn dstn : ℕ)
  | movsxR2r (dRow sRow sStart srcn dstn : ℕ)
  | movsxM2r (dRow : ℕ) (addr : ADDRINT) (srcn dstn : ℕ)
  | leaProp (ins : ADDRINT) (dstRow baseRow baseStart idxRow idxStart size : ℕ)
  | cmpR2r (ins : ADDRINT) (dRow dStart : ℕ) (dval : UINT64) (sRow sStart : ℕ) (sval : UINT64)
      (size : ℕ)
  | cmpM2r (ins : ADDRINT) (dRow dStart : ℕ) (dval : UINT64) (srcAddr : ADDRINT) (size : ℕ)
  | cmpI2r (ins : ADDRINT) (dRow dStart : ℕ) (dval : UINT64) (imm : UINT32) (size : ℕ)
  | cmpR2m (ins : ADDRINT) (destAddr : ADDRINT) (sRow sStart : ℕ) (sval : UINT64) (size : ℕ)
  | cmpI2m (ins : ADDRINT) (destAddr : ADDRINT) (imm : UINT32) (size : ℕ)
  | cmpM2m (ins : ADDRINT) (destAddr srcAddr : ADDRINT) (size : ℕ)
  | shiftR (dRow dStart n : ℕ)
  | shiftM (addr : ADDRINT) (n : ℕ)
  | shldR2r (dRow dStart sRow sStart n : ℕ)
  | bswapReg (dRow dStart n : ℕ)
  | movbeM2r (dRow dStart : ℕ) (addr : ADDRINT) (n : ℕ)
  | movbeR2m (addr : ADDRINT) (sRow sStart n : ℕ)
  | cmpxchgMem (addr : ADDRINT) (srcRow srcStart accumRow accumStart n : ℕ)
  | cmpxchgReg (dRow dStart srcRow srcStart accumRow accumStart n : ℕ)
  | xaddR2r (dRow dStart sRow sStart n : ℕ)
  | xaddM2r (addr : ADDRINT) (sRow sStart n : ℕ)

namespace CleanCall

/-- A call without a record. -/
def silent (f : Engine PUnit) : Engine (Option Record) := do f; pure none

/-- The call, and the record it emits. -/
def run (app : AppView) (limitOffset : INT32) : CleanCall → Engine (Option Record)
  | .r2rXfer dr ds sr ss n => silent (LibdftDr.r2rXfer dr ds sr ss n)
  | .rClr r s n => silent (LibdftDr.rClr r s n)
  | .movM2r r s a n => silent (LibdftDr.movM2r r s a n)
  | .movR2m a r s n => silent (LibdftDr.movR2m a r s n)
  | .movClrMem a n => silent (LibdftDr.movClrMem a n)
  | .m2mXfer da sa n => silent (LibdftDr.m2mXfer da sa n)
  | .ternaryR2r r s n => silent (LibdftDr.ternaryR2r r s n)
  | .ternaryM2r a n => silent (LibdftDr.ternaryM2r a n)
  | .xchgR2r ar as' br bs n => silent (LibdftDr.xchgR2r ar as' br bs n)
  | .xchgM2r a r s n => silent (LibdftDr.xchgM2r a r s n)
  | .cmovR2r pred dr ds sr ss n => silent (LibdftDr.cmovR2r app.xflags pred dr ds sr ss n)
  | .cmovM2r pred dr ds a n => silent (LibdftDr.cmovM2r app.xflags pred dr ds a n)
  | .binaryR2r dr ds sr ss n => silent (LibdftDr.binaryR2r dr ds sr ss n)
  | .binaryM2r dr ds a n => silent (LibdftDr.binaryM2r dr ds a n)
  | .binaryR2m a sr ss n => silent (LibdftDr.binaryR2m a sr ss n)
  | .movzxR2r dr sr ss k n => silent (LibdftDr.movzxR2r dr sr ss k n)
  | .movzxM2r dr a k n => silent (LibdftDr.movzxM2r dr a k n)
  | .movsxR2r dr sr ss k n => silent (LibdftDr.movsxR2r dr sr ss k n)
  | .movsxM2r dr a k n => silent (LibdftDr.movsxM2r dr a k n)
  | .leaProp i dr br bs ir is n => Option.map Record.lea <$> LibdftDr.leaProp i dr br bs ir is n
  | .cmpR2r i dr ds dv sr ss sv n => Option.map .cmp <$> LibdftDr.cmpR2r i dr ds dv sr ss sv n
  | .cmpM2r i dr ds dv a n => Option.map .cmp <$> LibdftDr.cmpM2r app.mem i dr ds dv a n
  | .cmpI2r i dr ds dv imm n => Option.map .cmp <$> LibdftDr.cmpI2r i dr ds dv imm n
  | .cmpR2m i a sr ss sv n => Option.map .cmp <$> LibdftDr.cmpR2m app.mem i a sr ss sv n
  | .cmpI2m i a imm n => Option.map .cmp <$> LibdftDr.cmpI2m app.mem i a imm n
  | .cmpM2m i da sa n => Option.map .cmp <$> LibdftDr.cmpM2m app.mem limitOffset i da sa n
  | .shiftR r s n => silent (LibdftDr.shiftR r s n)
  | .shiftM a n => silent (LibdftDr.shiftM a n)
  | .shldR2r dr ds sr ss n => silent (LibdftDr.shldR2r dr ds sr ss n)
  | .bswapReg r s n => silent (LibdftDr.bswapReg r s n)
  | .movbeM2r r s a n => silent (LibdftDr.movbeM2r r s a n)
  | .movbeR2m a r s n => silent (LibdftDr.movbeR2m a r s n)
  | .cmpxchgMem a sr ss ar as' n => silent (LibdftDr.cmpxchgMem a sr ss ar as' n)
  | .cmpxchgReg dr ds sr ss ar as' n => silent (LibdftDr.cmpxchgReg dr ds sr ss ar as' n)
  | .xaddR2r dr ds sr ss n => silent (LibdftDr.xaddR2r dr ds sr ss n)
  | .xaddM2r a sr ss n => silent (LibdftDr.xaddM2r a sr ss n)

/-- The destination spans; the ternary calls write RAX and RDX whatever their operand. -/
def writes : CleanCall → Set Cell
  | .r2rXfer dr ds _ _ n | .cmovR2r _ dr ds _ _ n | .binaryR2r dr ds _ _ n
  | .shldR2r dr ds _ _ n => regSpan dr ds n
  | .rClr r s n | .shiftR r s n | .bswapReg r s n => regSpan r s n
  | .movM2r r s _ n | .cmovM2r _ r s _ n | .binaryM2r r s _ n | .movbeM2r r s _ n => regSpan r s n
  | .movR2m a _ _ n | .binaryR2m a _ _ n | .movbeR2m a _ _ n => memSpan a n
  | .movClrMem a n | .shiftM a n => memSpan a n
  | .m2mXfer da _ n => memSpan da n
  | .ternaryR2r _ _ n | .ternaryM2r _ n => ternarySpan n
  | .xchgR2r ar as' br bs n => regSpan ar as' n ∪ regSpan br bs n
  | .xchgM2r a r s n => regSpan r s n ∪ memSpan a n
  | .movzxR2r dr _ _ k n | .movsxR2r dr _ _ k n => regSpan dr 0 (max k n)
  | .movzxM2r dr _ k n | .movsxM2r dr _ k n => regSpan dr 0 (max k n)
  | .leaProp _ dr _ _ _ _ n => regSpan dr 0 n
  | .cmpR2r .. | .cmpM2r .. | .cmpI2r .. | .cmpR2m .. | .cmpI2m .. | .cmpM2m .. => ∅
  | .cmpxchgMem a _ _ ar as' n => memSpan a n ∪ regSpan ar as' n
  | .cmpxchgReg dr ds _ _ ar as' n => regSpan dr ds n ∪ regSpan ar as' n
  | .xaddR2r dr ds sr ss n => regSpan dr ds n ∪ regSpan sr ss n
  | .xaddM2r a sr ss n => memSpan a n ∪ regSpan sr ss n

/-- The addresses whose tags are looked up. A CMP looks at none of a range whose first byte is
above the last user address. -/
def reads (app : AppView) : CleanCall → Set ADDRINT
  | .movM2r _ _ a n | .binaryM2r _ _ a n | .binaryR2m a _ _ n | .xchgM2r a _ _ n
  | .ternaryM2r a n | .shiftM a n | .movbeM2r _ _ a n | .cmpxchgMem a _ _ _ _ n
  | .xaddM2r a _ _ n | .m2mXfer _ a n => addrSpan a n
  | .movzxM2r _ a k _ | .movsxM2r _ a k _ => addrSpan a k
  | .cmovM2r pred _ _ a n => {x ∈ addrSpan a n | condTriggered pred app.xflags = true}
  | .cmpM2r _ _ _ _ a n | .cmpR2m _ a _ _ _ n | .cmpI2m _ a _ n =>
    {x ∈ addrSpan a n | a ≤ lastAddress}
  | .cmpM2m _ da sa n =>
    {x ∈ addrSpan da n ∪ addrSpan sa n | da ≤ lastAddress ∧ sa ≤ lastAddress}
  | _ => ∅

/-- The spans lie in the register file, and widths are those of operands. -/
def InBounds : CleanCall → Prop
  | .r2rXfer dr ds sr ss n | .cmovR2r _ dr ds sr ss n | .binaryR2r dr ds sr ss n
  | .xchgR2r dr ds sr ss n | .shldR2r dr ds sr ss n | .xaddR2r dr ds sr ss n =>
    GprSpan dr ds n ∧ GprSpan sr ss n
  | .rClr r s n | .shiftR r s n | .bswapReg r s n => GprSpan r s n
  | .movM2r r s _ n | .cmovM2r _ r s _ n | .binaryM2r r s _ n | .movbeM2r r s _ n => GprSpan r s n
  | .movR2m _ r s n | .binaryR2m _ r s n | .movbeR2m _ r s n | .xchgM2r _ r s n
  | .xaddM2r _ r s n => GprSpan r s n
  | .movClrMem _ n => n < 2 ^ 32
  | .m2mXfer .. | .shiftM .. => True
  | .ternaryR2r r s n => GprSpan r s n ∧ n ≤ 8
  | .ternaryM2r _ n => n ≤ 8
  | .movzxR2r dr sr ss k n | .movsxR2r dr sr ss k n => GprSpan dr 0 (max k n) ∧ GprSpan sr ss k
  | .movzxM2r dr _ k n | .movsxM2r dr _ k n => GprSpan dr 0 (max k n)
  | .leaProp _ dr br bs ir is n => GprSpan dr 0 n ∧ GprSpan br bs n ∧ GprSpan ir is n ∧ n ≤ 8
  | .cmpR2r _ dr ds _ sr ss _ n => GprSpan dr ds n ∧ GprSpan sr ss n ∧ n ≤ 8
  | .cmpM2r _ r s _ _ n | .cmpI2r _ r s _ _ n | .cmpR2m _ _ r s _ n => GprSpan r s n ∧ n ≤ 8
  | .cmpI2m _ _ _ n | .cmpM2m _ _ _ n => n ≤ 8
  | .cmpxchgMem _ sr ss ar as' n => GprSpan sr ss n ∧ GprSpan ar as' n
  | .cmpxchgReg dr ds sr ss ar as' n => GprSpan dr ds n ∧ GprSpan sr ss n ∧ GprSpan ar as' n

variable {D : Set Cell} {L : Set ℕ} {held : Set Tag} {guard : Prop}

theorem silent_flow {f : Engine PUnit} (h : Flow D L held guard (fun _ => ∅) f) :
    Flow D L held guard (fun _ => ∅) (silent f) :=
  (h.bind fun _ => skip_flow none).guard_iff (by simp)

theorem emits_flow {α : Type} {f : Engine (Option α)} {g : α → Record}
    (h : Flow D L held guard (fun _ => ∅) f) :
    Flow D L held guard (fun _ => ∅) (Option.map g <$> f) := by
  rw [map_eq_pure_bind]
  exact (h.bind fun _ => skip_flow _).guard_iff (by simp)

/-- A range that is looked up only if its first byte is in range. -/
theorem guarded_iff {addr : ADDRINT} {n : ℕ} :
    (∀ a ∈ {x ∈ addrSpan addr n | addr ≤ lastAddress}, a ≤ lastAddress) ↔
      (addr ≤ lastAddress → InRange addr n) := by
  rw [inRange_iff]
  exact ⟨fun g first a ha => g a ⟨ha, first⟩, fun g a ha => g ha.2 a ha.1⟩

/-- A call changes its destination only, brings in no label, and returns exactly when every
address it looks up is in range. -/
theorem flow {c : CleanCall} {app : AppView} {limitOffset : INT32} (h : c.InBounds) :
    Flow c.writes L held (∀ a ∈ c.reads app, a ≤ lastAddress) (fun _ => ∅)
      (c.run app limitOffset) := by
  cases c with
  | r2rXfer => exact (silent_flow (r2rXfer_flow h.1 h.2)).guard_iff (by simp [reads])
  | rClr => exact (silent_flow (rClr_flow h)).guard_iff (by simp [reads])
  | movM2r => exact (silent_flow (movM2r_flow h)).guard_iff inRange_iff.symm
  | movR2m => exact (silent_flow (movR2m_flow h)).guard_iff (by simp [reads])
  | movClrMem => exact (silent_flow (movClrMem_flow h)).guard_iff (by simp [reads])
  | m2mXfer => exact (silent_flow m2mXfer_flow).guard_iff inRange_iff.symm
  | ternaryR2r => exact (silent_flow (ternaryR2r_flow h.1 h.2)).guard_iff (by simp [reads])
  | ternaryM2r => exact (silent_flow (ternaryM2r_flow h)).guard_iff inRange_iff.symm
  | xchgR2r => exact (silent_flow (xchgR2r_flow h.1 h.2)).guard_iff (by simp [reads])
  | xchgM2r => exact (silent_flow (xchgM2r_flow h)).guard_iff inRange_iff.symm
  | cmovR2r => exact (silent_flow (cmovR2r_flow h.1 h.2)).guard_iff (by simp [reads])
  | cmovM2r =>
    refine (silent_flow (cmovM2r_flow h)).guard_iff ?_
    rw [inRange_iff]
    exact ⟨fun g taken a ha => g a ⟨ha, taken⟩, fun g a ha => g ha.2 a ha.1⟩
  | binaryR2r => exact (silent_flow (binaryR2r_flow h.1 h.2)).guard_iff (by simp [reads])
  | binaryM2r => exact (silent_flow (binaryM2r_flow h)).guard_iff inRange_iff.symm
  | binaryR2m => exact (silent_flow (binaryR2m_flow h)).guard_iff inRange_iff.symm
  | movzxR2r => exact (silent_flow (movzxR2r_flow h.1 h.2)).guard_iff (by simp [reads])
  | movzxM2r => exact (silent_flow (movzxM2r_flow h)).guard_iff inRange_iff.symm
  | movsxR2r => exact (silent_flow (movsxR2r_flow h.1 h.2)).guard_iff (by simp [reads])
  | movsxM2r => exact (silent_flow (movsxM2r_flow h)).guard_iff inRange_iff.symm
  | leaProp =>
    exact (emits_flow (leaProp_flow h.1 h.2.1 h.2.2.1 h.2.2.2)).guard_iff (by simp [reads])
  | cmpR2r => exact (emits_flow (cmpR2r_flow h.1 h.2.1 h.2.2)).guard_iff (by simp [reads])
  | cmpM2r => exact (emits_flow (cmpM2r_flow h.1 h.2)).guard_iff guarded_iff
  | cmpI2r => exact (emits_flow (cmpI2r_flow h.1 h.2)).guard_iff (by simp [reads])
  | cmpR2m => exact (emits_flow (cmpR2m_flow h.1 h.2)).guard_iff guarded_iff
  | cmpI2m => exact (emits_flow (cmpI2m_flow h)).guard_iff guarded_iff
  | cmpM2m =>
    refine (emits_flow (cmpM2m_flow h)).guard_iff ?_
    rw [inRange_iff, inRange_iff]
    constructor
    · exact fun g ends => ⟨fun a ha => g a ⟨.inl ha, ends⟩, fun a ha => g a ⟨.inr ha, ends⟩⟩
    · rintro g a ⟨ha | ha, ends⟩
      · exact (g ends).1 a ha
      · exact (g ends).2 a ha
  | shiftR => exact (silent_flow (shiftR_flow h)).guard_iff (by simp [reads])
  | shiftM => exact (silent_flow shiftM_flow).guard_iff inRange_iff.symm
  | shldR2r => exact (silent_flow (shldR2r_flow h.1 h.2)).guard_iff (by simp [reads])
  | bswapReg => exact (silent_flow (bswapReg_flow h)).guard_iff (by simp [reads])
  | movbeM2r => exact (silent_flow (movbeM2r_flow h)).guard_iff inRange_iff.symm
  | movbeR2m => exact (silent_flow (movbeR2m_flow h)).guard_iff (by simp [reads])
  | cmpxchgMem => exact (silent_flow (cmpxchgMem_flow h.1 h.2)).guard_iff inRange_iff.symm
  | cmpxchgReg =>
    exact (silent_flow (cmpxchgReg_flow h.1 h.2.1 h.2.2)).guard_iff (by simp [reads])
  | xaddR2r => exact (silent_flow (xaddR2r_flow h.1 h.2)).guard_iff (by simp [reads])
  | xaddM2r => exact (silent_flow (xaddM2r_flow h)).guard_iff inRange_iff.symm

end CleanCall

end LibdftDr
