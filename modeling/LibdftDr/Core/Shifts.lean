import Mathlib.Data.Finset.Union
import LibdftDr.Core.Agreement
import LibdftDr.Core.Places

/-!
# Shifts

A shift or rotate gives every byte of its operand the union of all of them. A double shift is
to add the bytes of its funnel register: the inserter takes for it the first register among the
sources that is not the destination. Where the funnel register is the destination, that is the
count register if there is one, and for a destination in memory nothing is inserted.
`shifts_unite_iff` says when a double shift is still right, and when the count has no influence.
-/
namespace LibdftDr
open Library Library.Action

/-! ## The handlers -/

/-- The union of what `n` cells hold. -/
def allOf (c : ℕ → Cell) (n : ℕ) (m : Cell → Finset ℕ) : Finset ℕ :=
  (Finset.range n).biUnion fun i => m (c i)

theorem allOf_succ (c : ℕ → Cell) (n : ℕ) (m : Cell → Finset ℕ) :
    allOf c (n + 1) m = allOf c n m ∪ m (c n) := by
  rw [allOf, Finset.range_add_one, Finset.biUnion_insert, Finset.union_comm]
  rfl

/-- The first cell and the ones after it. -/
theorem allOf_first (c : ℕ → Cell) {n : ℕ} (hn : n ≠ 0) (m : Cell → Finset ℕ) :
    m (c 0) ∪ allOf (fun i => c (1 + i)) (n - 1) m = allOf c n m := by
  obtain ⟨k, rfl⟩ := Nat.exists_eq_succ_of_ne_zero hn
  rw [Nat.succ_sub_one]
  induction k with
  | zero => simp [allOf]
  | succ k ih =>
    rw [allOf_succ, ← Finset.union_assoc, ih (Nat.succ_ne_zero k), allOf_succ c (k + 1),
      Nat.add_comm 1 k]

theorem mem_allOf {c : ℕ → Cell} {n : ℕ} {m : Cell → Finset ℕ} {l : ℕ} :
    l ∈ allOf c n m ↔ ∃ i < n, l ∈ m (c i) := by
  simp [allOf]

/-- A union over a list, one after the other. -/
theorem mem_foldl_union {γ : Type*} {g : γ → Finset ℕ} {xs : List γ} {u : Finset ℕ} {l : ℕ} :
    l ∈ xs.foldl (fun u x => u ∪ g x) u ↔ l ∈ u ∨ ∃ x ∈ xs, l ∈ g x := by
  induction xs generalizing u with
  | nil => simp
  | cons x xs ih =>
    rw [List.foldl_cons, ih, Finset.mem_union, List.exists_mem_cons_iff, or_assoc]

section Handlers

variable {held : Set (Tag × Finset ℕ)} {m : Cell → Finset ℕ} {addr : ADDRINT}
  {row start dstRow dstStart srcRow srcStart n : ℕ}

theorem unite_does {src : ℕ → Engine Tag} {c : ℕ → Cell} {u : Tag} {l : Finset ℕ}
    (hu : (u, l) ∈ held)
    (hs : ∀ i < n, ∀ held, byLabels.Does held m (fun t => {(t, m (c i))}) m (src i)) :
    byLabels.Does held m (fun t => {(t, l ∪ allOf c n m)}) m (unite n src u) := by
  refine View.Does.fold (fun _ => m) (fun i t => {(t, l ∪ allOf c i m)}) ?_ fun i hi t => ?_
  · simpa [allOf] using hu
  · rw [allOf_succ, ← Finset.union_assoc]
    exact (hs i hi _).bind fun b => Meaning.combine_does (.inl (.inr rfl)) (.inr rfl)

/-- Every cell gets `v`. -/
def fill (d : ℕ → Cell) (v : Finset ℕ) (n : ℕ) (m : Cell → Finset ℕ) : Cell → Finset ℕ :=
  rounds (fun i m => Function.update m (d i) v) n m

theorem fillGpr_does {t : Tag} {v : Finset ℕ} (h : GprSpan row start n) (ht : (t, v) ∈ held) :
    byLabels.Does held m (fun _ => ∅) (fill (fun i => .reg row (start + i)) v n m)
      (loop n fun i => gprSet row (start + i) t) := by
  refine View.Does.loop (fun i hi m => ?_) m
  exact Meaning.gprSet_does (h.inFile hi) ht

theorem shiftR_does (h : GprSpan row start n) (pos : n ≠ 0) :
    byLabels.Does held m (fun _ => ∅)
      (fill (fun i => .reg row (start + i)) (allOf (fun i => .reg row (start + i)) n m) n m)
      (shiftR row start n) := by
  unfold shiftR
  rw [if_neg pos, ← allOf_first _ pos]
  refine (Meaning.gprGet_does (h.inFile (by omega : 0 < n))).bind fun _ =>
    (unite_does (.inr rfl) fun i hi _ => Meaning.gprGet_does (h.inFile (by omega))).bind
      fun _ => ?_
  exact fillGpr_does h (.inr rfl)

theorem shldR2r_does (hd : GprSpan dstRow dstStart n) (hs : GprSpan srcRow srcStart n)
    (pos : n ≠ 0) :
    byLabels.Does held m (fun _ => ∅)
      (fill (fun i => .reg dstRow (dstStart + i))
        (allOf (fun i => .reg dstRow (dstStart + i)) n m ∪
          allOf (fun i => .reg srcRow (srcStart + i)) n m) n m)
      (shldR2r dstRow dstStart srcRow srcStart n) := by
  unfold shldR2r
  rw [if_neg pos, ← allOf_first _ pos]
  refine (Meaning.gprGet_does (hd.inFile (by omega : 0 < n))).bind fun _ =>
    (unite_does (.inr rfl) fun i hi _ => Meaning.gprGet_does (hd.inFile (by omega))).bind
      fun _ =>
    (unite_does (.inr rfl) fun i hi _ => Meaning.gprGet_does (hs.inFile hi)).bind fun _ => ?_
  exact fillGpr_does hd (.inr rfl)

end Handlers

section Reads

variable {X : Set Cell} {addr : ADDRINT} {row start dstRow dstStart srcRow srcStart n : ℕ}

theorem shiftR_respects (h : ∀ i < n, Cell.reg row (start + i) ∉ X) :
    Respects (Shadow.AgreeOff X) (shiftR row start n) := by
  refine Respects.ite (fun _ => Respects.pure _) fun pos => ?_
  refine (gprGet_respects (h 0 (by omega))).bind fun u =>
    (unite_respects (fun i hi => gprGet_respects (h (1 + i) (by omega))) u).bind fun _ => ?_
  exact Respects.loop fun i _ => gprSet_respects _ _ _

theorem shiftM_respects (h : ∀ i < n, Cell.mem (byteAt addr i) ∉ X) :
    Respects (Shadow.AgreeOff X) (shiftM addr n) := by
  refine Respects.ite (fun _ => Respects.pure _) fun pos => ?_
  have first : Cell.mem addr ∉ X := byteAt_zero addr ▸ h 0 (by omega)
  refine (getb_respects first).bind fun u =>
    (unite_respects (fun i hi => getb_respects (h (1 + i) (by omega))) u).bind fun _ => ?_
  exact Respects.loop fun i _ => setb_respects _ _

theorem shldR2r_respects (hd : ∀ i < n, Cell.reg dstRow (dstStart + i) ∉ X)
    (hs : ∀ i < n, Cell.reg srcRow (srcStart + i) ∉ X) :
    Respects (Shadow.AgreeOff X) (shldR2r dstRow dstStart srcRow srcStart n) := by
  refine Respects.ite (fun _ => Respects.pure _) fun pos => ?_
  refine (gprGet_respects (hd 0 (by omega))).bind fun u =>
    (unite_respects (fun i hi => gprGet_respects (hd (1 + i) (by omega))) u).bind fun u =>
    (unite_respects (fun i hi => gprGet_respects (hs i hi)) u).bind fun _ => ?_
  exact Respects.loop fun i _ => gprSet_respects _ _ _

theorem runCalls_respects {R : Shadow → Shadow → Prop} {app : AppView} {limitOffset : INT32}
    {cs : List CleanCall} (h : ∀ c ∈ cs, Respects R (c.run app limitOffset)) :
    Respects R (runCalls app limitOffset cs) := by
  induction cs with
  | nil => exact Respects.pure _
  | cons c cs ih =>
    refine (h c List.mem_cons_self).bind fun r =>
      (ih fun c hc => h c (.tail _ hc)).bind fun rs => Respects.pure _

theorem silent_respects {R : Shadow → Shadow → Prop} {f : Engine PUnit} (h : Respects R f) :
    Respects R (CleanCall.silent f) :=
  h.bind fun _ => Respects.pure _

end Reads

/-! ## The instructions -/

/-- The count of a shift: an immediate, or CL. -/
inductive Count where
  | imm (v : UINT64)
  | cl

/-- CL. -/
def clView : GprView := .low .rcx .b1

def Count.opnd : Count → Opnd
  | imm v => .immed v
  | cl => .reg clView.reg

def Opcode.isShift : Opcode → Bool
  | .shl | .shr | .sar | .rol | .ror | .rcl | .rcr => true
  | _ => false

/-- A shift or rotate; the inserter looks at the destination only. -/
structure Instr.IsShift (instr : Instr) (dst : Place) : Prop where
  opcode : instr.opcode.isShift = true
  head : instr.dsts.head? = some dst.opnd

/-- SHLD or SHRD with the sources as DynamoRIO lists them. -/
structure Instr.IsDoubleShift (instr : Instr) (dst : Place) (funnel : GprView) (count : Count) :
    Prop where
  opcode : instr.opcode = .shld ∨ instr.opcode = .shrd
  head : instr.dsts.head? = some dst.opnd
  srcs : instr.srcs = [.reg funnel.reg, count.opnd, dst.opnd]
  width : funnel.width = dst.width
  wide : dst.width ≠ .b1

/-- The register that the inserter takes for the funnel register of `v`. -/
def funnelFound (v funnel : GprView) : Count → Option GprView
  | .imm _ => if v = funnel then none else some funnel
  | .cl => if v = funnel then some clView else some funnel

/-- The call for a destination register. -/
def doubleShiftCall (v : GprView) : Option GprView → CleanCall
  | none => .shiftR v.full.row v.start v.width.bytes
  | some u => .shldR2r v.full.row v.start u.full.row u.start (min v.width.bytes u.width.bytes)

section Inserted

variable {cpu : Cpu} {instr : Instr} {dst : Place} {v funnel : GprView} {count : Count}

theorem Instr.IsShift.inserted (sh : instr.IsShift dst) : insInspectDr cpu instr =
    match dst with
    | .reg v => [.shiftR v.full.row v.start v.width.bytes]
    | .mem m _ _ => withMemAddr cpu m fun addr => .shiftM addr m.size := by
  have routed : insInspectDr cpu instr = insertShift cpu instr := by
    have := sh.opcode
    unfold insInspectDr
    cases h : instr.opcode <;> simp_all [Opcode.isShift]
  rw [routed, insertShift, sh.head]
  cases dst with
  | reg v => simp [Place.opnd, GprView.span]
  | mem m w size => rfl

theorem Instr.IsDoubleShift.routed (sh : instr.IsDoubleShift dst funnel count) :
    insInspectDr cpu instr = insertShldShrd instr := by
  obtain h | h := sh.opcode <;> simp [insInspectDr, h]

theorem Instr.IsDoubleShift.inserted_mem {m : MemRef} {w : RegWidth} {size : m.size = w.bytes}
    (sh : instr.IsDoubleShift (.mem m w size) funnel count) : insInspectDr cpu instr = [] := by
  rw [sh.routed, insertShldShrd, sh.head]
  rfl

theorem Instr.IsDoubleShift.inserted_reg (sh : instr.IsDoubleShift (.reg v) funnel count) :
    insInspectDr cpu instr = [doubleShiftCall v (funnelFound v funnel count)] := by
  have cl : clView ≠ v := by
    rintro rfl
    exact sh.wide rfl
  rw [sh.routed, insertShldShrd, sh.head, sh.srcs]
  cases count with
  | imm k =>
    by_cases same : v = funnel
    · subst same
      simp [Place.opnd, Count.opnd, gprRegs, funnelFound, doubleShiftCall, GprView.span]
    · simp [Place.opnd, Count.opnd, gprRegs, funnelFound, doubleShiftCall, GprView.span, same,
        Ne.symm same]
  | cl =>
    by_cases same : v = funnel
    · subst same
      simp [Place.opnd, Count.opnd, gprRegs, funnelFound, doubleShiftCall, GprView.span, cl]
    · simp [Place.opnd, Count.opnd, gprRegs, funnelFound, doubleShiftCall, GprView.span, same,
        Ne.symm same]

end Inserted

/-! ## The union -/

/-- The bytes of destination and funnel register. -/
def Shadow.funnelUnion (s : Shadow) (cpu : Cpu) (dst : Place) (funnel : GprView) : Finset ℕ :=
  allOf (dst.cell cpu) dst.width.bytes s.labelsOf ∪ allOf funnel.cell dst.width.bytes s.labelsOf

/-- Every byte of the destination holds the union. -/
def Shadow.Funnelled (s t : Shadow) (cpu : Cpu) (dst : Place) (funnel : GprView) : Prop :=
  ∀ i < dst.width.bytes, t.labelsOf (dst.cell cpu i) = s.funnelUnion cpu dst funnel

/-- A destination in memory holds the union already. For a register that is its own funnel
register, shifted by CL, the bytes after the first hold it, and the first does with CL. -/
structure Shadow.FunnelCovered (s : Shadow) (cpu : Cpu) (dst : Place) (funnel : GprView)
    (count : Count) : Prop where
  mem : dst.isReg = false → s.Funnelled s cpu dst funnel
  first : dst.is funnel = true → count = .cl →
    s.labelsOf (dst.cell cpu 0) ∪ s.labelsOf (clView.cell 0) = s.funnelUnion cpu dst funnel
  rest : dst.is funnel = true → count = .cl → ∀ i < dst.width.bytes, i ≠ 0 →
    s.labelsOf (dst.cell cpu i) = s.funnelUnion cpu dst funnel

/-- What the call for a destination register does to the labels. -/
def doubleShifted (v : GprView) (m : Cell → Finset ℕ) : Option GprView → Cell → Finset ℕ
  | none => fill v.cell (allOf v.cell v.width.bytes m) v.width.bytes m
  | some u =>
    let n := min v.width.bytes u.width.bytes
    fill v.cell (allOf v.cell n m ∪ allOf u.cell n m) n m

section Union

variable {cpu : Cpu} {instr : Instr} {dst : Place} {v funnel : GprView} {count : Count} {s : Shadow}
  {app : AppView} {limitOffset : INT32}

variable (app limitOffset) in
theorem doubleShiftCall_run (v : GprView) (found : Option GprView) (sound : s.Sound) :
    ∃ t, runCalls app limitOffset [doubleShiftCall v found] s = .ok ([], t) ∧
      s.Becomes t (doubleShiftCall v found).writes (doubleShifted v s.labelsOf found) := by
  have pos := v.width.bytes_pos
  cases found with
  | none =>
    have h := v.gprSpan v.width.bytes_le
    exact runCalls_labels rfl (shiftR_does h pos.ne') h sound
  | some u =>
    have n8 : min v.width.bytes u.width.bytes ≤ 8 := (min_le_left _ _).trans v.width.bytes_le
    have hd := v.gprSpan n8
    have hs := u.gprSpan n8
    have n0 : min v.width.bytes u.width.bytes ≠ 0 := (lt_min pos u.width.bytes_pos).ne'
    exact runCalls_labels rfl (shldR2r_does hd hs n0) ⟨hd, hs⟩ sound

theorem min_clView (v : GprView) : min v.width.bytes clView.width.bytes = 1 :=
  min_eq_right v.width.bytes_pos

section Shifted

variable {m : Cell → Finset ℕ} {i : ℕ}

/-- Without a funnel register the destination is united with itself. -/
theorem doubleShifted_none (hi : i < v.width.bytes) :
    doubleShifted v m none (v.cell i) = allOf v.cell v.width.bytes m := fills_apply hi

theorem doubleShifted_funnel (width : funnel.width = v.width) (hi : i < v.width.bytes) :
    doubleShifted v m (some funnel) (v.cell i) =
      allOf v.cell v.width.bytes m ∪ allOf funnel.cell v.width.bytes m := by
  have n : min v.width.bytes funnel.width.bytes = v.width.bytes := by rw [width, min_self]
  simp only [doubleShifted, n]
  exact fills_apply hi

/-- One byte of the destination is written where CL stands in for the funnel register. -/
theorem doubleShifted_cl : doubleShifted v m (some clView) (v.cell i) =
    if i = 0 then m (v.cell 0) ∪ m (clView.cell 0) else m (v.cell i) := by
  have first : ∀ c, allOf c 1 m = m (c 0) := fun c => by simp [allOf]
  simp only [doubleShifted, min_clView, first]
  split_ifs with zero
  · rw [zero]
    exact fills_apply Nat.one_pos
  · refine fills_frame fun j hj same => zero ?_
    have := (GprView.cell_eq_iff.mp same).2
    omega

end Shifted

/-- A register that is its own funnel register. -/
theorem funnelUnion_self : s.funnelUnion cpu (.reg v) v = allOf v.cell v.width.bytes s.labelsOf :=
  Finset.union_self _

theorem Instr.IsDoubleShift.reg_run (sh : instr.IsDoubleShift (.reg v) funnel count)
    (sound : s.Sound) (room : RoomAfter app limitOffset (insInspectDr cpu instr) s) :
    ∃ t, runCalls app limitOffset (insInspectDr cpu instr) s = .ok ([], t) ∧
      ∀ c, t.labelsOf c = doubleShifted v s.labelsOf (funnelFound v funnel count) c := by
  rw [sh.inserted_reg] at room ⊢
  obtain ⟨t, run, becomes⟩ :=
    doubleShiftCall_run app limitOffset v (funnelFound v funnel count) sound
  exact ⟨t, run, becomes.labels (room _ _ run)⟩

theorem Instr.IsDoubleShift.funnelled_iff (sh : instr.IsDoubleShift dst funnel count)
    (sound : s.Sound) (room : RoomAfter app limitOffset (insInspectDr cpu instr) s) :
    (∃ recs t, runCalls app limitOffset (insInspectDr cpu instr) s = .ok (recs, t) ∧
      s.Funnelled t cpu dst funnel) ↔ s.FunnelCovered cpu dst funnel count := by
  cases dst with
  | mem m w size =>
    have run : runCalls app limitOffset (insInspectDr cpu instr) s = .ok ([], s) := by
      rw [sh.inserted_mem]
      rfl
    rw [exists_run_iff run]
    exact ⟨fun h => ⟨fun _ => h, nofun, nofun⟩, fun h => h.mem rfl⟩
  | reg v =>
    obtain ⟨t, run, labels⟩ := sh.reg_run sound room
    rw [exists_run_iff run]
    by_cases same : v = funnel
    · subst same
      cases count with
      | imm k =>
        rw [funnelFound, if_pos rfl] at labels
        refine iff_of_true (fun i hi => ?_) ⟨nofun, nofun, nofun⟩
        rw [funnelUnion_self]
        exact (labels _).trans (doubleShifted_none hi)
      | cl =>
        rw [funnelFound, if_pos rfl] at labels
        have cells := fun i => (labels (v.cell i)).trans doubleShifted_cl
        constructor
        · refine fun h => ⟨nofun, fun _ _ => ?_, fun _ _ i hi zero => ?_⟩
          · exact ((cells 0).trans (if_pos rfl)).symm.trans (h 0 v.width.bytes_pos)
          · exact ((cells i).trans (if_neg zero)).symm.trans (h i hi)
        · intro h i hi
          have is : (Place.reg v).is v = true := Place.is_iff.mpr rfl
          refine (cells i).trans ?_
          split_ifs with zero
          · exact h.first is rfl
          · exact h.rest is rfl i hi zero
    · have found : funnelFound v funnel count = some funnel := by
        cases count <;> exact if_neg same
      have is : ¬ (Place.reg v).is funnel = true := by simp [Place.is, same]
      rw [found] at labels
      refine iff_of_true (fun i hi => ?_)
        ⟨nofun, fun h => absurd h is, fun h => absurd h is⟩
      exact (labels _).trans (doubleShifted_funnel sh.width hi)

end Union

/-! ## The count -/

/-- Two states that differ in the tag of CL only have the same outcome, up to that tag. -/
def IgnoresCount (app : AppView) (limitOffset : INT32) (cpu : Cpu) (instr : Instr) : Prop :=
  ∀ s t : Shadow, s.Sound → t.Sound → Shadow.AgreeOff {clView.cell 0} s t →
    SameOutcome (Shadow.AgreeOff {clView.cell 0})
      (runCalls app limitOffset (insInspectDr cpu instr) s)
      (runCalls app limitOffset (insInspectDr cpu instr) t)

/-- CL is none of the operand's bytes. -/
def Place.SparesCount (cpu : Cpu) (p : Place) : Prop :=
  ∀ i < p.width.bytes, p.cell cpu i ≠ clView.cell 0

section Influence

variable {cpu : Cpu} {instr : Instr} {dst : Place} {v funnel : GprView} {count : Count} {s : Shadow}
  {app : AppView} {limitOffset : INT32}

/-- What respects agreement off CL ignores the count. -/
theorem IgnoresCount.of_calls {cs : List CleanCall} (inserted : insInspectDr cpu instr = cs)
    (h : ∀ c ∈ cs, Respects (Shadow.AgreeOff {clView.cell 0}) (c.run app limitOffset)) :
    IgnoresCount app limitOffset cpu instr := by
  intro s t _ _ agree
  rw [inserted]
  exact runCalls_respects h s t agree

theorem Instr.IsShift.ignoresCount (sh : instr.IsShift dst) (spares : dst.SparesCount cpu) :
    IgnoresCount app limitOffset cpu instr := by
  refine IgnoresCount.of_calls sh.inserted ?_
  cases dst with
  | reg v =>
    rintro c hc
    obtain rfl := List.mem_singleton.mp hc
    exact silent_respects (shiftR_respects fun i hi => spares i hi)
  | mem m w size =>
    intro c hc
    dsimp only [withMemAddr] at hc
    split_ifs at hc
    · obtain rfl := List.mem_singleton.mp hc
      exact silent_respects (shiftM_respects fun i hi => nofun)
    · cases hc

theorem doubleShiftCall_respects {u : GprView} (hv : (Place.reg v).SparesCount cpu)
    (hu : (Place.reg u).SparesCount cpu) :
    Respects (Shadow.AgreeOff {clView.cell 0})
      ((doubleShiftCall v (some u)).run app limitOffset) := by
  refine silent_respects (shldR2r_respects (fun i hi => ?_) fun i hi => ?_)
  · exact hv i (hi.trans_le (min_le_left _ _))
  · exact hu i (hi.trans_le (min_le_right _ _))

/-- CL is united with the first byte of `row`, if that is not tainted. -/
theorem shldR2r_cl_run {row start : ℕ} (h : GprSpan row start 1)
    (clear : s.gprFile row start = clearedVal) :
    shldR2r row start DFT_REG_RCX 0 1 s =
      .ok (⟨⟩, s.withGpr row start (s.gprFile DFT_REG_RCX 0)) := by
  have dst : InFile row start := h.inFile (i := 0) Nat.one_pos
  have get : gprGet row start s = .ok (clearedVal, s) := by rw [gprGet, if_pos dst, clear]
  have count : gprGet DFT_REG_RCX 0 s = .ok (s.gprFile DFT_REG_RCX 0, s) := if_pos (by decide)
  have union : tagCombine clearedVal (s.gprFile DFT_REG_RCX 0) s.sets =
      .ok (s.gprFile DFT_REG_RCX 0, s.sets) := by
    unfold tagCombine
    split_ifs with same zero
    · exact congrArg (fun id => Except.ok (Tag.mk id, s.sets)) same
    · rfl
    · exact absurd rfl zero
    · exact absurd rfl zero
  have set : ∀ x, gprSet row start x s = .ok (⟨⟩, s.withGpr row start x) := fun _ => if_pos dst
  unfold shldR2r
  rw [if_neg Nat.one_ne_zero, bind_of_ok get]
  simp only [Nat.sub_self, unite, fold, loop, pure_bind, bind_assoc, Nat.add_zero]
  rw [bind_of_ok count, bind_of_ok (combine_run union)]
  exact set _

theorem labelled_sound : labelled.Sound := by
  have run : setTag 0 Shadow.new = .ok ((Tag.set 0 tagmapAlloc).1, labelled) := rfl
  have flow : Flow Set.univ Set.univ ∅ True (fun t => {t}) (setTag 0) :=
    setTag_flow (Set.mem_univ _)
  exact (flow.of_ok Shadow.new_sound Shadow.new_sound.within_univ run).2.1

theorem countTainted_agree : Shadow.AgreeOff {clView.cell 0} labelled countTainted := by
  have set : gprSet DFT_REG_RCX 0 (Tag.set 0 tagmapAlloc).1 labelled = .ok (⟨⟩, countTainted) := rfl
  obtain ⟨sets, cells⟩ := Shadow.cell_gprSet set
  exact ⟨sets, fun c hc => (cells c).trans (if_neg hc)⟩

/-- Taint of CL gets into a register that is its own funnel register. -/
theorem Instr.IsDoubleShift.not_ignoresCount (sh : instr.IsDoubleShift (.reg v) v .cl)
    (spares : (Place.reg v).SparesCount cpu) : ¬ IgnoresCount app limitOffset cpu instr := by
  intro ignores
  have same := ignores labelled countTainted labelled_sound countTainted_sound countTainted_agree
  have call : doubleShiftCall v (some clView) = .shldR2r v.full.row v.start DFT_REG_RCX 0 1 :=
    congrArg (CleanCall.shldR2r _ _ _ _) (min_clView v)
  have found : funnelFound v v .cl = some clView := if_pos rfl
  have other : v.cell 0 ≠ clView.cell 0 := spares 0 v.width.bytes_pos
  have h : GprSpan v.full.row v.start 1 := v.gprSpan (by omega)
  have clear : countTainted.gprFile v.full.row v.start = clearedVal :=
    (countTainted_agree.cells (v.cell 0) other).trans rfl
  rw [sh.inserted_reg, found, call,
    runCalls_silent (c := .shldR2r _ _ _ _ _) rfl (shldR2r_cl_run h rfl),
    runCalls_silent (c := .shldR2r _ _ _ _ _) rfl (shldR2r_cl_run h clear)] at same
  cases same with
  | ok agree =>
    have tags := agree.cells (v.cell 0) other
    simp only [GprView.cell, Shadow.cell, Shadow.withGpr, Function.update_self,
      Nat.add_zero] at tags
    exact absurd tags (by decide)

theorem Instr.IsDoubleShift.ignoresCount_iff (sh : instr.IsDoubleShift dst funnel count)
    (hd : dst.SparesCount cpu) (hf : (Place.reg funnel).SparesCount cpu) :
    IgnoresCount app limitOffset cpu instr ↔ ¬ (dst.is funnel = true ∧ count = .cl) := by
  constructor
  · rintro ignores ⟨is, rfl⟩
    obtain rfl := Place.is_iff.mp is
    exact sh.not_ignoresCount hd ignores
  · intro apart
    cases dst with
    | mem m w size => exact IgnoresCount.of_calls sh.inserted_mem nofun
    | reg v =>
      refine IgnoresCount.of_calls sh.inserted_reg ?_
      rintro c hc
      obtain rfl := List.mem_singleton.mp hc
      by_cases same : v = funnel
      · subst same
        cases count with
        | imm k =>
          have found : funnelFound v v (.imm k) = none := if_pos rfl
          rw [found]
          exact silent_respects (shiftR_respects fun i hi => hd i hi)
        | cl => exact absurd ⟨Place.is_iff.mpr rfl, rfl⟩ apart
      · have found : funnelFound v funnel count = some funnel := by
          cases count <;> exact if_neg same
        rw [found]
        exact doubleShiftCall_respects hd hf

end Influence

/-- A double shift gives its destination the union of destination and funnel register if and
only if the shadow is covered. A shift ignores its count, and so does a double shift unless the
destination is the funnel register and the count is CL. -/
theorem shifts_unite_iff (app : AppView) (limitOffset : INT32) :
    (∀ (cpu : Cpu) (instr : Instr) (dst : Place) (funnel : GprView) (count : Count) (s : Shadow),
      instr.IsDoubleShift dst funnel count → s.Sound →
      RoomAfter app limitOffset (insInspectDr cpu instr) s →
      ((∃ recs t, runCalls app limitOffset (insInspectDr cpu instr) s = .ok (recs, t) ∧
        s.Funnelled t cpu dst funnel) ↔ s.FunnelCovered cpu dst funnel count)) ∧
    (∀ (cpu : Cpu) (instr : Instr) (dst : Place) (funnel : GprView) (count : Count),
      instr.IsDoubleShift dst funnel count → dst.SparesCount cpu →
      (Place.reg funnel).SparesCount cpu →
      (IgnoresCount app limitOffset cpu instr ↔ ¬ (dst.is funnel = true ∧ count = .cl))) ∧
    ∀ (cpu : Cpu) (instr : Instr) (dst : Place), instr.IsShift dst → dst.SparesCount cpu →
      IgnoresCount app limitOffset cpu instr :=
  ⟨fun _ _ _ _ _ _ sh sound room => sh.funnelled_iff sound room,
    fun _ _ _ _ _ sh hd hf => sh.ignoresCount_iff hd hf, fun _ _ _ sh hd => sh.ignoresCount hd⟩

/-- `shld rbx, g, cl`. -/
def shldRbx (g : Gpr) : Instr where
  opcode := .shld
  dsts := [.reg (.gpr .rbx .b8)]
  srcs := [.reg (.gpr g .b8), .reg (.gpr .rcx .b1), .reg (.gpr .rbx .b8)]
  predicate := .none
  pc := 0x401000

/-- `shl rbx, cl`. -/
def shlRbx : Instr where
  opcode := .shl
  dsts := [.reg (.gpr .rbx .b8)]
  srcs := [.reg (.gpr .rcx .b1), .reg (.gpr .rbx .b8)]
  predicate := .none
  pc := 0x401000

theorem shldRbx_isDoubleShift (g : Gpr) :
    (shldRbx g).IsDoubleShift (Place.reg64 .rbx) (.low g .b8) .cl :=
  ⟨.inl rfl, rfl, rfl, rfl, by decide⟩

theorem reg64_sparesCount {g : Gpr} (h : g ≠ .rcx) : (Place.reg64 g).SparesCount idleCpu :=
  fun _ _ same => h (GprView.cell_eq_iff.mp same).1

theorem shldRbx_room (g : Gpr) (h : g = .rbx ∨ g = .rdx) :
    RoomAfter idleApp 4 (insInspectDr idleCpu (shldRbx g)) countTainted := by
  obtain rfl | rfl := h
  · exact RoomAfter.of_two (by decide +kernel)
  · exact RoomAfter.of_two (by decide +kernel)

/-- Nothing but CL is tainted. -/
theorem countTainted_not_covered :
    ¬ countTainted.FunnelCovered idleCpu (Place.reg64 .rbx) (.low .rbx .b8) .cl := by
  intro covered
  have first := covered.first rfl rfl
  have rest := covered.rest rfl rfl 1 (by decide) (by decide)
  have clear : countTainted.labelsOf ((Place.reg64 .rbx).cell idleCpu 1) = ∅ := by
    rw [countTainted_sound.labelsOf_eq_empty]
    decide
  rw [← rest, clear, Finset.union_eq_empty, countTainted_sound.labelsOf_eq_empty,
    countTainted_sound.labelsOf_eq_empty] at first
  exact absurd first.2 (by decide)

/-- With a tainted CL, `shld rbx, rdx, cl` is right and `shld rbx, rbx, cl` is not. -/
theorem shifts_unite_iff_rbx :
    ((∃ recs t, runCalls idleApp 4 (insInspectDr idleCpu (shldRbx .rdx)) countTainted =
      .ok (recs, t) ∧ countTainted.Funnelled t idleCpu (Place.reg64 .rbx) (.low .rdx .b8)) ∧
    ¬ ∃ recs t, runCalls idleApp 4 (insInspectDr idleCpu (shldRbx .rbx)) countTainted =
      .ok (recs, t) ∧ countTainted.Funnelled t idleCpu (Place.reg64 .rbx) (.low .rbx .b8)) ∧
    (IgnoresCount idleApp 4 idleCpu (shldRbx .rdx) ∧
      ¬ IgnoresCount idleApp 4 idleCpu (shldRbx .rbx)) ∧
    IgnoresCount idleApp 4 idleCpu shlRbx := by
  obtain ⟨union, count, single⟩ := shifts_unite_iff idleApp 4
  have rbx : (Place.reg64 .rbx).SparesCount idleCpu := reg64_sparesCount (by decide)
  have rdx : (Place.reg64 .rdx).SparesCount idleCpu := reg64_sparesCount (by decide)
  refine ⟨⟨?_, ?_⟩, ⟨?_, ?_⟩, single idleCpu shlRbx (Place.reg64 .rbx) ⟨rfl, rfl⟩ rbx⟩
  · refine (union _ _ _ _ _ _ (shldRbx_isDoubleShift .rdx) countTainted_sound
      (shldRbx_room .rdx (.inr rfl))).mpr ?_
    exact ⟨nofun, nofun, nofun⟩
  · rw [union _ _ _ _ _ _ (shldRbx_isDoubleShift .rbx) countTainted_sound
      (shldRbx_room .rbx (.inl rfl))]
    exact countTainted_not_covered
  · exact (count _ _ _ _ _ (shldRbx_isDoubleShift .rdx) rbx rdx).mpr nofun
  · rw [count _ _ _ _ _ (shldRbx_isDoubleShift .rbx) rbx rbx, not_not]
    exact ⟨rfl, rfl⟩

/-- `shld rbx, rbx, cl` with a tainted CL gives BL the tag of CL, and the other bytes nothing. -/
theorem shld_cl_leaks :
    ¬ ((∀ (cpu : Cpu) (instr : Instr) (dst : Place) (funnel : GprView) (count : Count) (s : Shadow)
        (app : AppView) (limitOffset : INT32), instr.IsDoubleShift dst funnel count → s.Sound →
        dst.Served cpu → RoomAfter app limitOffset (insInspectDr cpu instr) s →
        ∃ recs t, runCalls app limitOffset (insInspectDr cpu instr) s = .ok (recs, t) ∧
          s.Funnelled t cpu dst funnel) ∧
      (∀ (cpu : Cpu) (instr : Instr) (dst : Place) (funnel : GprView) (count : Count)
        (app : AppView) (limitOffset : INT32), instr.IsDoubleShift dst funnel count →
        dst.SparesCount cpu → (Place.reg funnel).SparesCount cpu →
        IgnoresCount app limitOffset cpu instr) ∧
      ∀ (cpu : Cpu) (instr : Instr) (dst : Place) (app : AppView) (limitOffset : INT32),
        instr.IsShift dst → dst.SparesCount cpu → IgnoresCount app limitOffset cpu instr) := by
  rintro ⟨union, -⟩
  have sh := shldRbx_isDoubleShift .rbx
  have room := shldRbx_room .rbx (.inl rfl)
  exact countTainted_not_covered ((sh.funnelled_iff countTainted_sound room).mp
    (union _ _ _ _ _ _ _ _ sh countTainted_sound trivial room))

end LibdftDr
