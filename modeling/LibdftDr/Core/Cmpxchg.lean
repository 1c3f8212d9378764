import LibdftDr.Core.Places

/-!
# CMPXCHG

The inserter takes the first register in the row of RAX for the accumulator, and the first other
register that is not the destination for the source. A source in the row of RAX or equal to the
destination is not found, and nothing is inserted; with AH as destination AH is taken for the
accumulator. `cmpxchg_unites_iff` says when the union of the three operands still arrives.
-/
namespace LibdftDr
open Library Library.Action

/-! ## The handlers -/

/-- Both outputs get the union of the three operands. -/
def exchange (d c a : Cell) (m : Cell → Finset ℕ) : Cell → Finset ℕ :=
  Function.update (Function.update m d (m d ∪ m c ∪ m a)) a (m d ∪ m c ∪ m a)

theorem exchange_local (d c a : Cell) : LocalTo {d, a} {d, c, a} (exchange d c a) where
  frame m b hb := by
    simp only [Set.mem_insert_iff, Set.mem_singleton_iff, not_or] at hb
    rw [exchange, Function.update_of_ne hb.2, Function.update_of_ne hb.1]
  reads m m' same b hb := by
    have hd := same d (by simp)
    have hc := same c (by simp)
    have ha := same a (by simp)
    obtain rfl | rfl := hb <;> simp [exchange, Function.update_apply, hd, hc, ha]

theorem exchange_apply {d c a b : Cell} {m : Cell → Finset ℕ} (hb : b ∈ ({d, a} : Set Cell)) :
    exchange d c a m b = m d ∪ m c ∪ m a := by
  obtain rfl | rfl := hb <;> simp [exchange, Function.update_apply]

section Handlers

variable {held : Set (Tag × Finset ℕ)} {m : Cell → Finset ℕ}
  {addr : ADDRINT} {dstRow dstStart srcRow srcStart accumRow accumStart n : ℕ}

theorem cmpxchgMem_does (ha : InRange addr n) (hs : GprSpan srcRow srcStart n)
    (hr : GprSpan accumRow accumStart n) :
    byLabels.Does held m (fun _ => ∅)
      (rounds (fun i => exchange (.mem (byteAt addr i)) (.reg srcRow (srcStart + i))
        (.reg accumRow (accumStart + i))) n m)
      (cmpxchgMem addr srcRow srcStart accumRow accumStart n) := by
  refine View.Does.loop (fun i hi m => ?_) m
  refine (Meaning.getb_does (ha i hi)).bind fun _ =>
    (Meaning.gprGet_does (hs.inFile hi)).bind fun _ =>
    (Meaning.gprGet_does (hr.inFile hi)).bind fun _ =>
    (Meaning.combine_does (.inl (.inl (.inr rfl))) (.inl (.inr rfl))).bind fun _ =>
    (Meaning.combine_does (.inr rfl) (.inl (.inr rfl))).bind fun _ =>
    (Meaning.setb_does (ha i hi) (.inr rfl)).bind fun _ => ?_
  exact Meaning.gprSet_does (hr.inFile hi) (.inl (.inr rfl))

theorem cmpxchgReg_does (hd : GprSpan dstRow dstStart n) (hs : GprSpan srcRow srcStart n)
    (hr : GprSpan accumRow accumStart n) :
    byLabels.Does held m (fun _ => ∅)
      (rounds (fun i => exchange (.reg dstRow (dstStart + i)) (.reg srcRow (srcStart + i))
        (.reg accumRow (accumStart + i))) n m)
      (cmpxchgReg dstRow dstStart srcRow srcStart accumRow accumStart n) := by
  refine View.Does.loop (fun i hi m => ?_) m
  refine (Meaning.gprGet_does (hd.inFile hi)).bind fun _ =>
    (Meaning.gprGet_does (hs.inFile hi)).bind fun _ =>
    (Meaning.gprGet_does (hr.inFile hi)).bind fun _ =>
    (Meaning.combine_does (.inl (.inl (.inr rfl))) (.inl (.inr rfl))).bind fun _ =>
    (Meaning.combine_does (.inr rfl) (.inl (.inr rfl))).bind fun _ =>
    (Meaning.gprSet_does (hd.inFile hi) (.inr rfl)).bind fun _ => ?_
  exact Meaning.gprSet_does (hr.inFile hi) (.inl (.inr rfl))

end Handlers

/-! ## The instruction -/

/-- The accumulator of width `w`. -/
def accumView (w : RegWidth) : GprView := .low .rax w

/-- CMPXCHG with the sources as DynamoRIO lists them. -/
structure Instr.IsCmpxchg (instr : Instr) (dst : Place) (src : GprView) : Prop where
  opcode : instr.opcode = .cmpxchg
  head : instr.dsts.head? = some dst.opnd
  srcs : instr.srcs = [.reg src.reg, dst.opnd, .reg (accumView dst.width).reg]
  width : src.width = dst.width

/-- The inserter does not find the source. -/
def srcMissed (dst : Place) (src : GprView) : Bool := decide (src.full = .rax) || dst.is src

/-- The register that the inserter takes for the accumulator. -/
def accumFound (dst : Place) : GprView :=
  if dst.is (.high .ah) then .high .ah else accumView dst.width

/-- The call for a source that is found. -/
def cmpxchgCall (cpu : Cpu) (src accum : GprView) : Place → CleanCall
  | .reg v => .cmpxchgReg v.full.row v.start src.full.row src.start accum.full.row accum.start
      v.width.bytes
  | .mem m w _ => .cmpxchgMem (cpu.ea m) src.full.row src.start accum.full.row accum.start w.bytes

section Inserted

variable {cpu : Cpu} {instr : Instr} {dst : Place} {src : GprView}

theorem isAccum_reg (v : GprView) : isAccum v.reg = decide (v.full = .rax) := by
  simp [isAccum]

theorem gprRegs_cons_reg (v : GprView) (os : List Opnd) :
    gprRegs (.reg v.reg :: os) = v.reg :: gprRegs os := by
  simp [gprRegs]

/-- A view of RAX that is not AH is the accumulator of its width. -/
theorem eq_accumView {v : GprView} (full : v.full = .rax) (low : v ≠ .high .ah) :
    v = accumView v.width := by
  cases v with
  | low g w => exact congrArg (GprView.low · w) full
  | high r => cases r <;> simp_all [GprView.full, HighReg.full]

/-- The registers among the sources. -/
theorem Instr.IsCmpxchg.regs (cx : instr.IsCmpxchg dst src) : gprRegs instr.srcs =
    src.reg :: (gprRegs [dst.opnd] ++ [(accumView dst.width).reg]) := by
  rw [cx.srcs]
  cases dst with
  | reg v => simp only [Place.opnd, gprRegs_cons_reg]; rfl
  | mem m w size => simp only [Place.opnd, gprRegs_cons_reg]; rfl

theorem srcMissed_iff : srcMissed dst src = true ↔ src.full = .rax ∨ dst = .reg src := by
  simp [srcMissed, Place.is_iff]

/-- A register is the destination if its name is. -/
theorem reg_eq_regOrNull_iff : src.reg = dst.opnd.regOrNull ↔ dst = .reg src := by
  cases dst with
  | reg v => simp [Place.opnd, Opnd.regOrNull, eq_comm]
  | mem m w size => cases src <;> simp [GprView.reg, Place.opnd, Opnd.regOrNull]

theorem Instr.IsCmpxchg.source (cx : instr.IsCmpxchg dst src) :
    (gprRegs instr.srcs).find? (fun r => !isAccum r && decide (r ≠ dst.opnd.regOrNull)) =
      if srcMissed dst src then none else some src.reg := by
  rw [cx.regs]
  split_ifs with missed
  · rw [srcMissed_iff] at missed
    refine List.find?_eq_none.mpr fun r hr => ?_
    simp only [List.mem_cons, List.mem_append, List.not_mem_nil, or_false] at hr
    obtain rfl | hr | rfl := hr
    · simpa [isAccum_reg, reg_eq_regOrNull_iff, imp_iff_not_or] using missed
    · cases dst with
      | reg v =>
        obtain rfl : r = v.reg := by simpa [Place.opnd, gprRegs] using hr
        simp [Place.opnd, Opnd.regOrNull]
      | mem => cases hr
    · simp [isAccum_reg, accumView, GprView.full]
  · rw [srcMissed_iff, not_or] at missed
    exact List.find?_cons_of_pos (by simp [isAccum_reg, reg_eq_regOrNull_iff, missed])

theorem Instr.IsCmpxchg.accum (cx : instr.IsCmpxchg dst src) (found : srcMissed dst src = false) :
    (gprRegs instr.srcs).find? isAccum = some (accumFound dst).reg := by
  have accum : ∀ w, isAccum (accumView w).reg = true := fun _ => rfl
  have other : isAccum src.reg = false := by
    rw [← Bool.not_eq_true, srcMissed_iff, not_or] at found
    simpa [isAccum_reg] using found.1
  rw [cx.regs, List.find?_cons_of_neg (by simp [other])]
  cases dst with
  | mem m w size => exact List.find?_cons_of_pos (accum w)
  | reg v =>
    have regs : gprRegs [(Place.reg v).opnd] = [v.reg] := by simp [Place.opnd, gprRegs]
    rw [regs, accumFound]
    by_cases full : v.full = .rax
    · rw [List.singleton_append, List.find?_cons_of_pos (by simp [isAccum_reg, full])]
      split_ifs with high
      · rw [Place.reg.inj (Place.is_iff.mp high)]
      · exact congrArg (some ∘ GprView.reg) (eq_accumView full (by simpa [Place.is] using high))
    · rw [List.singleton_append, List.find?_cons_of_neg (by simp [isAccum_reg, full])]
      have low : (Place.reg v).is (.high .ah) = false := by
        rw [← Bool.not_eq_true, Place.is_iff]
        rintro ⟨⟩
        exact full rfl
      rw [low]
      exact List.find?_cons_of_pos (accum v.width)

theorem Instr.IsCmpxchg.inserted (cx : instr.IsCmpxchg dst src) (served : dst.Served cpu) :
    insInspectDr cpu instr =
      if srcMissed dst src then [] else [cmpxchgCall cpu src (accumFound dst) dst] := by
  have size : dst.width.bytes ≠ 0 := dst.width.bytes_pos.ne'
  simp only [insInspectDr, cx.opcode, insertCmpxchg, cx.head, cx.source]
  cases missed : srcMissed dst src with
  | true => simp
  | false =>
    simp only [cx.accum missed, Bool.false_eq_true, if_false, Option.bind_some,
      GprView.regShadowSpan_reg, dst.sizeInBytes_opnd, if_neg size]
    cases dst with
    | reg v =>
      simp only [Place.opnd, GprView.regShadowSpan_reg]
      rfl
    | mem m w h =>
      simp only [Place.opnd, withMemAddr_of_scratch served.1]
      rfl

end Inserted

/-! ## The result -/

/-- What destination and accumulator are to hold in byte `i`. -/
def Shadow.cmpxchgUnion (s : Shadow) (cpu : Cpu) (dst : Place) (src : GprView) (i : ℕ) : Finset ℕ :=
  s.labelsOf (dst.cell cpu i) ∪ s.labelsOf (src.cell i) ∪
    s.labelsOf ((accumView dst.width).cell i)

/-- Destination and accumulator hold the union, and the rest is as before. -/
structure Shadow.Exchanged (s t : Shadow) (cpu : Cpu) (dst : Place) (src : GprView) : Prop where
  outputs : ∀ i < dst.width.bytes, t.labelsOf (dst.cell cpu i) = s.cmpxchgUnion cpu dst src i ∧
    t.labelsOf ((accumView dst.width).cell i) = s.cmpxchgUnion cpu dst src i
  frame : ∀ c, (∀ i < dst.width.bytes, c ≠ dst.cell cpu i ∧ c ≠ (accumView dst.width).cell i) →
    t.cell c = s.cell c

/-- The operands are told apart, or the union is where it should be already. -/
def Shadow.CmpxchgCovered (s : Shadow) (cpu : Cpu) (dst : Place) (src : GprView) : Prop :=
  if srcMissed dst src then
    ∀ i < dst.width.bytes,
      s.labelsOf (dst.cell cpu i) = s.labelsOf ((accumView dst.width).cell i) ∧
        s.labelsOf (src.cell i) ⊆ s.labelsOf (dst.cell cpu i)
  else dst.is (.high .ah) → s.labelsOf (.reg DFT_REG_RAX 0) =
    s.labelsOf (.reg DFT_REG_RAX 1) ∪ s.labelsOf (src.cell 0)

section Result

variable {cpu : Cpu} {instr : Instr} {dst : Place} {src : GprView} {s t : Shadow} (app : AppView)
  (limitOffset : INT32)

theorem accumFound_width (dst : Place) : (accumFound dst).width = dst.width := by
  unfold accumFound
  split_ifs with high
  · rw [Place.is_iff.mp high]
    rfl
  · rfl

/-- What a call for operands that are found does to the labels. -/
def exchanges (cpu : Cpu) (dst : Place) (src accum : GprView) (m : Cell → Finset ℕ) :
    Cell → Finset ℕ :=
  rounds (fun i => exchange (dst.cell cpu i) (src.cell i) (accum.cell i)) dst.width.bytes m

theorem exchanges_apply {accum : GprView} {m : Cell → Finset ℕ} {i : ℕ} {b : Cell}
    (hs : src.width = dst.width) (ha : accum.width = dst.width) (hi : i < dst.width.bytes)
    (hb : b ∈ ({dst.cell cpu i, accum.cell i} : Set Cell)) :
    exchanges cpu dst src accum m b =
      m (dst.cell cpu i) ∪ m (src.cell i) ∪ m (accum.cell i) := by
  have apart : ∀ {p q : Place}, p.width = dst.width → p.Beside q → ∀ {i j}, i < dst.width.bytes →
      j < i → p.cell cpu j ≠ q.cell cpu i := by
    intro p q hp beside i j hi lt same
    have := beside.index_eq (by rw [hp]; omega) (by rw [hp]; exact hi) same
    omega
  have reg : ∀ {p : Place} {v : GprView}, p.width = v.width → p.Beside (.reg v) :=
    fun h => ⟨h, .inr (.inr rfl)⟩
  refine (rounds_apply (fun i _ => exchange_local _ _ _) ?_ hi hb).trans (exchange_apply hb)
  rintro i hi j lt b (rfl | rfl)
  · have h1 := apart rfl (.refl dst) hi lt
    have h2 := apart rfl (reg hs.symm) hi lt
    have h3 := apart rfl (reg ha.symm) hi lt
    simp_all [Place.cell]
  · have h1 := apart (p := .reg accum) ha (reg ha.symm).symm hi lt
    have h2 := apart (p := .reg accum) ha (reg (ha.trans hs.symm)) hi lt
    have h3 := apart (p := .reg accum) ha (.refl _) hi lt
    simp_all [Place.cell]

theorem Instr.IsCmpxchg.found_run (cx : instr.IsCmpxchg dst src) (found : srcMissed dst src = false)
    (sound : s.Sound) (served : dst.Served cpu) :
    ∃ t, runCalls app limitOffset (insInspectDr cpu instr) s = .ok ([], t) ∧
      s.Becomes t (cmpxchgCall cpu src (accumFound dst) dst).writes
        (exchanges cpu dst src (accumFound dst) s.labelsOf) := by
  have h8 := dst.width.bytes_le
  have hs := src.gprSpan h8
  have ha := (accumFound dst).gprSpan h8
  rw [cx.inserted served, found]
  cases dst with
  | reg v =>
    have hd := v.gprSpan h8
    exact runCalls_labels rfl (cmpxchgReg_does hd hs ha) ⟨hd, hs, ha⟩ sound
  | mem m w size => exact runCalls_labels rfl (cmpxchgMem_does served.2 hs ha) ⟨hs, ha⟩ sound

theorem cmpxchgCall_writes {accum : GprView} (ha : accum.width = dst.width) {c : Cell}
    (hc : c ∈ (cmpxchgCall cpu src accum dst).writes) :
    ∃ i < dst.width.bytes, c = dst.cell cpu i ∨ c = accum.cell i := by
  cases dst with
  | reg v =>
    obtain ⟨i, hi, rfl⟩ | ⟨i, hi, rfl⟩ := hc
    · exact ⟨i, hi, .inl rfl⟩
    · exact ⟨i, hi, .inr rfl⟩
  | mem m w size =>
    obtain ⟨i, hi, rfl⟩ | ⟨i, hi, rfl⟩ := hc
    · exact ⟨i, hi, .inl rfl⟩
    · exact ⟨i, hi, .inr rfl⟩

theorem union_fixed_iff {d c a : Finset ℕ} : d = d ∪ c ∪ a ∧ a = d ∪ c ∪ a ↔ d = a ∧ c ⊆ d := by
  constructor
  · rintro ⟨hd, ha⟩
    refine ⟨hd.trans ha.symm, ?_⟩
    rw [hd]
    exact Finset.subset_union_right.trans Finset.subset_union_left
  · rintro ⟨rfl, sub⟩
    rw [Finset.union_eq_left.mpr sub, Finset.union_self]
    exact ⟨rfl, rfl⟩

/-- The union where AH is taken for the accumulator: AL is left as it was. -/
theorem union_ah_iff {h c l : Finset ℕ} : h ∪ c ∪ h = h ∪ c ∪ l ∧ l = h ∪ c ∪ l ↔ l = h ∪ c := by
  have ah : h ∪ c ∪ h = h ∪ c := Finset.union_eq_left.mpr Finset.subset_union_left
  rw [ah]
  constructor
  · rintro ⟨same, low⟩
    exact low.trans same.symm
  · rintro rfl
    exact ⟨(Finset.union_self _).symm, (Finset.union_self _).symm⟩

/-- A cell that is none of the outputs is not written. -/
theorem not_mem_cmpxchgCall_writes {accum : GprView} (ha : accum.width = dst.width) {c : Cell}
    (hc : ∀ i < dst.width.bytes, c ≠ dst.cell cpu i ∧ c ≠ accum.cell i) :
    c ∉ (cmpxchgCall cpu src accum dst).writes := by
  intro mem
  obtain ⟨i, hi, e | e⟩ := cmpxchgCall_writes ha mem
  · exact (hc i hi).1 e
  · exact (hc i hi).2 e

theorem Instr.IsCmpxchg.found_labels (cx : instr.IsCmpxchg dst src)
    (found : srcMissed dst src = false) (sound : s.Sound) (served : dst.Served cpu)
    (room : RoomAfter app limitOffset (insInspectDr cpu instr) s) :
    ∃ t, runCalls app limitOffset (insInspectDr cpu instr) s = .ok ([], t) ∧
      Shadow.Le (cmpxchgCall cpu src (accumFound dst) dst).writes s t ∧
      ∀ i < dst.width.bytes, ∀ b ∈ ({dst.cell cpu i, (accumFound dst).cell i} : Set Cell),
        t.labelsOf b = s.labelsOf (dst.cell cpu i) ∪ s.labelsOf (src.cell i) ∪
          s.labelsOf ((accumFound dst).cell i) := by
  obtain ⟨t, run, becomes⟩ := cx.found_run app limitOffset found sound served
  refine ⟨t, run, becomes.le, fun i hi b hb => ?_⟩
  rw [becomes.labels (room _ _ run)]
  exact exchanges_apply cx.width (accumFound_width dst) hi hb

/-- With AH as destination AL is not written. -/
theorem al_not_written (cpu : Cpu) (src : GprView) : Cell.reg DFT_REG_RAX 0 ∉
    (cmpxchgCall cpu src (.high .ah) (.reg (.high .ah))).writes := by
  have other : Cell.reg DFT_REG_RAX 0 ∉ regSpan DFT_REG_RAX 1 1 := by
    rw [mem_regSpan]
    omega
  rintro (mem | mem)
  · exact other mem
  · exact other mem

/-- With AH as destination both outputs are to be in RAX, and AH alone is written. -/
theorem Instr.IsCmpxchg.exchanged_ah_iff (cx : instr.IsCmpxchg (.reg (.high .ah)) src)
    (found : srcMissed (.reg (.high .ah)) src = false) (sound : s.Sound)
    (room : RoomAfter app limitOffset (insInspectDr cpu instr) s) :
    (∃ recs t, runCalls app limitOffset (insInspectDr cpu instr) s = .ok (recs, t) ∧
      s.Exchanged t cpu (.reg (.high .ah)) src) ↔
      s.labelsOf (.reg DFT_REG_RAX 0) =
        s.labelsOf (.reg DFT_REG_RAX 1) ∪ s.labelsOf (src.cell 0) := by
  obtain ⟨t, run, le, apply⟩ := cx.found_labels app limitOffset found sound trivial room
  have written : t.labelsOf (.reg DFT_REG_RAX 1) = _ := apply 0 (by decide) _ (.inl rfl)
  have kept := le.labelsOf_eq sound (al_not_written cpu src)
  rw [exists_run_iff run]
  constructor
  · intro h
    have outputs := h.outputs 0 (by decide)
    exact union_ah_iff.mp ⟨written.symm.trans outputs.1, kept.symm.trans outputs.2⟩
  · intro h
    obtain ⟨union, accum⟩ := union_ah_iff.mpr h
    refine ⟨fun i hi => ?_, fun c hc => le.frame c ?_⟩
    · obtain rfl : i = 0 := Nat.lt_one_iff.mp hi
      exact ⟨written.trans union, kept.trans accum⟩
    · exact not_mem_cmpxchgCall_writes rfl fun i hi => ⟨(hc i hi).1, (hc i hi).1⟩

theorem Instr.IsCmpxchg.exchanged_iff (cx : instr.IsCmpxchg dst src) (sound : s.Sound)
    (served : dst.Served cpu) (room : RoomAfter app limitOffset (insInspectDr cpu instr) s) :
    (∃ recs t, runCalls app limitOffset (insInspectDr cpu instr) s = .ok (recs, t) ∧
      s.Exchanged t cpu dst src) ↔ s.CmpxchgCovered cpu dst src := by
  unfold Shadow.CmpxchgCovered
  cases missed : srcMissed dst src with
  | true =>
    have run : runCalls app limitOffset (insInspectDr cpu instr) s = .ok ([], s) := by
      rw [cx.inserted served, missed]
      rfl
    rw [exists_run_iff run, if_pos rfl]
    constructor
    · exact fun h i hi => union_fixed_iff.mp (h.outputs i hi)
    · exact fun h => ⟨fun i hi => union_fixed_iff.mpr (h i hi), fun _ _ => rfl⟩
  | false =>
    rw [if_neg (by simp)]
    cases high : dst.is (.high .ah) with
    | false =>
      obtain ⟨t, run, le, apply⟩ := cx.found_labels app limitOffset missed sound served room
      have accum : accumFound dst = accumView dst.width := by simp [accumFound, high]
      rw [accum] at apply le
      rw [exists_run_iff run]
      refine iff_of_true ⟨fun i hi => ⟨apply i hi _ (.inl rfl), apply i hi _ (.inr rfl)⟩,
        fun c hc => le.frame c ?_⟩ (by simp)
      exact not_mem_cmpxchgCall_writes rfl hc
    | true =>
      obtain rfl := Place.is_iff.mp high
      rw [cx.exchanged_ah_iff app limitOffset missed sound room]
      exact ⟨fun h _ => h, fun h => h rfl⟩

end Result

/-- CMPXCHG unites its three operands in destination and accumulator if and only if the inserter
tells them apart, or the union is there already. -/
theorem cmpxchg_unites_iff {cpu : Cpu} {instr : Instr} {dst : Place} {src : GprView} {s : Shadow}
    (app : AppView) (limitOffset : INT32) (cx : instr.IsCmpxchg dst src) (sound : s.Sound)
    (served : dst.Served cpu) (room : RoomAfter app limitOffset (insInspectDr cpu instr) s) :
    (∃ recs t, runCalls app limitOffset (insInspectDr cpu instr) s = .ok (recs, t) ∧
      s.Exchanged t cpu dst src) ↔ s.CmpxchgCovered cpu dst src :=
  cx.exchanged_iff app limitOffset sound served room

/-- `cmpxchg rbx, g`. -/
def cmpxchgRbx (g : Gpr) : Instr where
  opcode := .cmpxchg
  dsts := [.reg (.gpr .rbx .b8), .reg (.gpr .rax .b8)]
  srcs := [.reg (.gpr g .b8), .reg (.gpr .rbx .b8), .reg (.gpr .rax .b8)]
  predicate := .none
  pc := 0x401000

theorem cmpxchgRbx_isCmpxchg (g : Gpr) :
    (cmpxchgRbx g).IsCmpxchg (Place.reg64 .rbx) (.low g .b8) := ⟨rfl, rfl, rfl, rfl⟩

theorem cmpxchgRbx_room (g : Gpr) (h : g = .rax ∨ g = .rcx) :
    RoomAfter idleApp 4 (insInspectDr idleCpu (cmpxchgRbx g)) upperTainted := by
  obtain rfl | rfl := h
  · exact RoomAfter.of_two (by decide +kernel)
  · exact RoomAfter.of_two (by decide +kernel)

/-- Byte 4 of RBX does not hold the tag of byte 4 of RAX. -/
theorem upperTainted_not_cmpxchgCovered :
    ¬ upperTainted.CmpxchgCovered idleCpu (Place.reg64 .rbx) (.low .rax .b8) := by
  intro covered
  exact upperTainted_rax4_only rfl (covered 4 (by decide)).2

/-- With a tainted byte 4 of RAX, `cmpxchg rbx, rcx` is right and `cmpxchg rbx, rax` is not. -/
theorem cmpxchg_unites_iff_rbx :
    (∃ recs t, runCalls idleApp 4 (insInspectDr idleCpu (cmpxchgRbx .rcx)) upperTainted =
      .ok (recs, t) ∧ upperTainted.Exchanged t idleCpu (Place.reg64 .rbx) (.low .rcx .b8)) ∧
    ¬ ∃ recs t, runCalls idleApp 4 (insInspectDr idleCpu (cmpxchgRbx .rax)) upperTainted =
      .ok (recs, t) ∧ upperTainted.Exchanged t idleCpu (Place.reg64 .rbx) (.low .rax .b8) := by
  have served : (Place.reg64 .rbx).Served idleCpu := trivial
  constructor
  · refine (cmpxchg_unites_iff idleApp 4 (cmpxchgRbx_isCmpxchg .rcx) upperTainted_sound served
      (cmpxchgRbx_room .rcx (.inr rfl))).mpr ?_
    intro high
    cases high
  · rw [cmpxchg_unites_iff idleApp 4 (cmpxchgRbx_isCmpxchg .rax) upperTainted_sound served
      (cmpxchgRbx_room .rax (.inl rfl))]
    exact upperTainted_not_cmpxchgCovered

/-- `cmpxchg rbx, rax` with a tainted byte 4 of RAX leaves RBX untainted. -/
theorem cmpxchg_skips_rax :
    ¬ ∀ (cpu : Cpu) (instr : Instr) (dst : Place) (src : GprView) (s : Shadow) (app : AppView)
      (limitOffset : INT32), instr.IsCmpxchg dst src → s.Sound → dst.Served cpu →
      RoomAfter app limitOffset (insInspectDr cpu instr) s →
      ∃ recs t, runCalls app limitOffset (insInspectDr cpu instr) s = .ok (recs, t) ∧
        s.Exchanged t cpu dst src := by
  intro claim
  have cx := cmpxchgRbx_isCmpxchg .rax
  have served : (Place.reg64 .rbx).Served idleCpu := trivial
  have room := cmpxchgRbx_room .rax (.inl rfl)
  exact upperTainted_not_cmpxchgCovered ((cx.exchanged_iff idleApp 4 upperTainted_sound served
    room).mp (claim _ _ _ _ _ _ _ cx upperTainted_sound served room))

end LibdftDr
