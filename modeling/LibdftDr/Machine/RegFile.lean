import LibdftDr.Core.GprCells
import LibdftDr.Machine.Events

/-!
# The register file over a run

A thread starts with an empty register file. Whatever the router inserts, summaries and calls
of the interface do, no index leaves the file, and only the bytes of the sixteen general purpose
registers are ever tainted. So the mask that `libdft_compute_gpr_mask` gathers from these bytes
speaks for the whole file.
-/
namespace LibdftDr
open Library Library.Action

/-! ## The mask -/

/-- The inner loop from byte `b` on, which stops at the first byte with a tag. -/
def rowTainted (row : ℕ) : (left b : ℕ) → Engine Bool
  | 0, _ => pure false
  | left + 1, b => do
    let t ← gprGet row b
    if t.id ≠ 0 then pure true else rowTainted row left (b + 1)

/-- One round of the outer loop of `libdft_compute_gpr_mask`. -/
def maskRow (row : ℕ) (m : UINT32) : Engine UINT32 := do
  let hit ← rowTainted row 8 0
  pure (if hit then m ||| (1#32 <<< row) else m)

def libdftComputeGprMask : Engine UINT32 :=
  fold (DFT_REG_R15 + 1 - DFT_REG_RDI) (fun i m => maskRow (DFT_REG_RDI + i) m) 0

/-- One of the eight bytes of the register has a tag. -/
def Shadow.RowTainted (s : Shadow) (row : ℕ) : Prop := ∃ b < 8, s.gprFile row b ≠ clearedVal

theorem rowTainted_run {s : Shadow} {row : ℕ} (hrow : row < GRP_NUM + 1) (left b : ℕ)
    (fits : b + left ≤ TAGS_PER_GPR) : ∃ hit, rowTainted row left b s = .ok (hit, s) ∧
      (hit = true ↔ ∃ i, b ≤ i ∧ i < b + left ∧ s.gprFile row i ≠ clearedVal) := by
  induction left generalizing b with
  | zero =>
    refine ⟨false, rfl, ?_⟩
    simp only [Bool.false_eq_true, false_iff]
    rintro ⟨i, lo, hi, -⟩
    omega
  | succ left ih =>
    have get : gprGet row b s = .ok (s.gprFile row b, s) := if_pos ⟨hrow, by omega⟩
    rw [rowTainted, bind_of_ok get]
    by_cases hb : (s.gprFile row b).id = 0
    · obtain ⟨hit, run, iff⟩ := ih (b + 1) (by omega)
      refine ⟨hit, by simpa [hb] using run, iff.trans ?_⟩
      constructor
      · rintro ⟨i, lo, hi, tag⟩
        exact ⟨i, by omega, by omega, tag⟩
      · rintro ⟨i, lo, hi, tag⟩
        have later : i ≠ b := by
          rintro rfl
          exact tag (Tag.ext hb)
        exact ⟨i, by omega, by omega, tag⟩
    · have tag : s.gprFile row b ≠ clearedVal := fun h => hb (congrArg Tag.id h)
      exact ⟨true, by rw [if_pos hb]; rfl, by simpa using ⟨b, le_rfl, by omega, tag⟩⟩

/-- A round sets the bit of its row exactly if the row has a tainted byte, and keeps the
others. -/
theorem maskRow_run {s : Shadow} {row : ℕ} (hrow : row < 32) (m : UINT32) :
    ∃ m', maskRow row m s = .ok (m', s) ∧
      ∀ n, m'.getLsbD n = true ↔ m.getLsbD n = true ∨ n = row ∧ s.RowTainted row := by
  have file : row < GRP_NUM + 1 := by rw [GRP_NUM]; omega
  obtain ⟨hit, run, iff⟩ := rowTainted_run (s := s) file 8 0 (by decide)
  refine ⟨_, by rw [maskRow, bind_of_ok run]; rfl, fun n => ?_⟩
  have tainted : hit = true ↔ s.RowTainted row := by simpa [Shadow.RowTainted] using iff
  rw [← tainted]
  cases hit with
  | false => simp
  | true =>
    have bit : (1#32 <<< row).getLsbD n = true ↔ n = row := by
      rw [← BitVec.twoPow_eq, BitVec.getLsbD_twoPow]
      simp [hrow, eq_comm]
    rw [if_pos rfl, BitVec.getLsbD_or, Bool.or_eq_true, bit, and_iff_left rfl]

/-- A bit is set exactly for the row of a register with a tainted byte. -/
theorem libdftComputeGprMask_run (s : Shadow) : ∃ m, libdftComputeGprMask s = .ok (m, s) ∧
    ∀ n, m.getLsbD n = true ↔ DFT_REG_RDI ≤ n ∧ n ≤ DFT_REG_R15 ∧ s.RowTainted n := by
  have rounds : ∀ k ≤ 16, ∃ m,
      fold k (fun i m => maskRow (DFT_REG_RDI + i) m) 0 s = .ok (m, s) ∧
        ∀ n, m.getLsbD n = true ↔ DFT_REG_RDI ≤ n ∧ n < DFT_REG_RDI + k ∧ s.RowTainted n := by
    intro k hk
    induction k with
    | zero =>
      refine ⟨0, rfl, fun n => ?_⟩
      have none : ¬ (DFT_REG_RDI ≤ n ∧ n < DFT_REG_RDI + 0 ∧ s.RowTainted n) := by omega
      simpa using none
    | succ k ih =>
      obtain ⟨m, run, bits⟩ := ih (by omega)
      have row : DFT_REG_RDI + k < 32 := by rw [DFT_REG_RDI]; omega
      obtain ⟨m', run', bits'⟩ := maskRow_run (s := s) row m
      refine ⟨m', by rw [fold, bind_of_ok run, run'], fun n => ?_⟩
      grind
  obtain ⟨m, run, bits⟩ := rounds 16 le_rfl
  refine ⟨m, run, fun n => (bits n).trans ?_⟩
  simp only [DFT_REG_RDI, DFT_REG_R15]
  grind

/-! ## What is never tainted -/

/-- Everything but the bytes of the sixteen registers is untainted. -/
def Shadow.SpareEmpty (s : Shadow) : Prop :=
  ∀ row b, ¬ GprByte row b → s.gprFile row b = clearedVal

/-- A summary clears whole rows and writes tags to the eight bytes of RAX only. -/
theorem dispatch_keeps_spareEmpty (mem : AppMem) (av : ArgVals) (sum : Summary) :
    (dispatch mem av sum).Keeps Shadow.SpareEmpty := by
  have ignores : Shadow.Ignores {c | ∀ row b, c = .reg row b → GprByte row b} Set.univ
      Shadow.SpareEmpty := by
    intro s t changed spare row b out
    obtain same | written | ⟨-, cleared⟩ := changed (.reg row b)
    · exact same.trans (spare row b out)
    · exact absurd (written row b rfl) out
    · exact cleared
  refine dispatch_keeps ignores (fun _ => ⟨fun _ _ => .inr trivial, ?_⟩) fun _ => ?_
  · rintro c ⟨i, hi, rfl⟩ row b ⟨⟩
    exact ⟨by decide, by decide, by omega⟩
  · rintro c ⟨i, hi, rfl⟩ row b ⟨⟩

/-! ## Runs -/

/-- A handler event is a call that the router inserts before a decoded instruction. -/
def Event.Inserted : Event → Prop
  | .handler _ _ c => ∃ cpu instr, instr.Encoded ∧ c ∈ insInspectDr cpu instr
  | .summary .. | .hook .. | .call _ => True

/-- A summary indexes the array of argument values by its first source only. -/
def Event.FirstOk : Event → Prop
  | .summary _ _ sum => sum.FirstOk
  | .handler .. | .hook .. | .call _ => True

/-- An event that returns. The handles passed in are ids that the table has given out; nothing
is asked of a summary. -/
structure InsertedStep (s : Shadow) (e : Event) (t : Shadow) : Prop where
  inserted : e.Inserted
  known : ∀ v ∈ e.tags, s.sets.Knows v
  run : ∃ r, e.run s = .ok (r, t)

section Runs

variable {s t : Shadow} {e : Event} {es : List Event}

theorem Event.Inserted.flow (ins : e.Inserted) (first : e.FirstOk) (L : Set ℕ)
    (hL : e.labels ⊆ L) :
    Flow e.writes L e.tags (∀ a ∈ e.reads, a ≤ lastAddress) (fun _ => ∅) e.run := by
  cases e with
  | handler app limitOffset c =>
    obtain ⟨cpu, instr, enc, mem⟩ := ins
    have fits : Fits instr.Is32 (insInspectDr cpu instr) := insInspectDr_fits enc.decoded
    have ok : (Event.handler app limitOffset c).WellFormed := (fits c mem).1
    exact Event.flow ok hL subset_rfl
  | summary mem av sum =>
    have first' : sum.FirstOk := first
    exact ((dispatch_flow first').bind fun _ => skip_flow _).guard_iff (by simp [Event.reads])
  | hook os fdset ctx h => exact Event.flow trivial hL subset_rfl
  | call c => exact Event.flow trivial hL subset_rfl

/-- A summary with a bad index does not return. -/
theorem Event.firstOk_of_run {r : HookEnd} (run : e.run s = .ok (r, t)) : e.FirstOk := by
  cases e with
  | handler | hook | call => trivial
  | summary mem av sum =>
    intro shape i hi
    by_contra bad
    obtain ⟨rest, hsrc⟩ : ∃ rest, sum.src = i :: rest := List.head?_eq_some_iff.mp hi
    have faults : dispatch mem av sum s = .error .outOfBounds := by
      have index : argIndexed av i = fail .outOfBounds := by simp [argIndexed, argVal, bad]
      simp only [dispatch, shape, handlePropPtr2ptr, hsrc, index]
      exact bind_of_error rfl
    rw [Event.run, bind_of_error faults] at run
    cases run

theorem reg_not_mem_buffer {row b : ℕ} (ctx : SyscallCtx) (h : PostHook) :
    Cell.reg row b ∉ h.buffer ctx := by
  cases h with
  | cleanup desc =>
    rintro ⟨i, mem⟩
    exact reg_not_mem_memSpan mem
  | read | pread64 | mmap | munmap => exact reg_not_mem_memSpan

theorem Api.Call.gprByte_of_writes {c : Api.Call} {row b : ℕ} (mem : Cell.reg row b ∈ c.writes) :
    GprByte row b := by
  cases c with
  | setRegTag reg | setRegTagByte reg =>
    obtain ⟨sp, span, mem⟩ := mem
    rw [Option.mem_def, Api.regSpan_eq] at span
    exact (operandSpan_of_regShadowSpan span).gprByte mem
  | clearMem | clearRange | paintRange => exact absurd mem reg_not_mem_memSpan
  | setMemTag | makeTag | combine | getMemTag | getMemTagRange | getRegTag | getRegTagByte
  | getRegTagRange | argPointedTag => cases mem

theorem Event.holds_of_known (known : ∀ v ∈ e.tags, s.sets.Knows v) :
    ∀ v ∈ e.tags, s.Holds Set.univ v :=
  fun v hv => ⟨known v hv, fun _ => Set.subset_univ _⟩

theorem InsertedStep.conclusions (step : InsertedStep s e t) (sound : s.Sound) :
    t.Sound ∧ Shadow.Le e.writes s t := by
  obtain ⟨r, run⟩ := step.run
  have flow := step.inserted.flow (Event.firstOk_of_run run) Set.univ (Set.subset_univ _)
  obtain ⟨-, sound', -, le⟩ := flow.of_ok_of_holds sound sound.within_univ
    (Event.holds_of_known step.known) run
  exact ⟨sound', le⟩

/-- The cells of `SpareEmpty` are outside the footprint of every event but a summary. -/
theorem InsertedStep.spareEmpty (step : InsertedStep s e t) (sound : s.Sound)
    (spare : s.SpareEmpty) : t.SpareEmpty := by
  obtain ⟨-, le⟩ := step.conclusions sound
  have kept : (∀ row b, Cell.reg row b ∈ e.writes → GprByte row b) → t.SpareEmpty := by
    intro writes row b out
    have same : t.cell (.reg row b) = s.cell (.reg row b) :=
      le.frame _ fun mem => out (writes row b mem)
    exact same.trans (spare row b out)
  cases e with
  | handler app limitOffset c =>
    obtain ⟨cpu, instr, enc, mem⟩ := step.inserted
    exact kept fun row b => (insInspectDr_inGprs enc c mem).of_writes
  | summary mem av sum =>
    obtain ⟨r, run⟩ := step.run
    have keeps : (Event.summary mem av sum).run.Keeps Shadow.SpareEmpty :=
      (dispatch_keeps_spareEmpty mem av sum).bind fun _ => Keeps.pure _
    exact keeps s r t spare run
  | hook os fdset ctx h => exact kept fun row b mem => absurd mem (reg_not_mem_buffer ctx h)
  | call c => exact kept fun row b => Api.Call.gprByte_of_writes

/-- A thread context as it is created, in any state of the process. -/
structure Shadow.FreshThread (s : Shadow) : Prop where
  sound : s.Sound
  empty : ∀ row b, s.gprFile row b = clearedVal

theorem Shadow.FreshThread.run (fresh : s.FreshThread) (run : Run InsertedStep s es t) :
    t.Sound ∧ t.SpareEmpty :=
  run.invariant (I := fun s => s.Sound ∧ s.SpareEmpty)
    ⟨fresh.sound, fun row b _ => fresh.empty row b⟩
    fun _ _ _ ok step => ⟨(step.conclusions ok.1).1, step.spareEmpty ok.1 ok.2⟩

/-- A row is untainted exactly if none of the eight bytes of a register in it is tainted. -/
theorem Shadow.SpareEmpty.row_iff (spare : s.SpareEmpty) (row : ℕ) :
    (∀ b < TAGS_PER_GPR, s.gprFile row b = clearedVal) ↔
      ¬ (DFT_REG_RDI ≤ row ∧ row ≤ DFT_REG_R15 ∧ s.RowTainted row) := by
  constructor
  · rintro empty ⟨-, -, b, hb, tag⟩
    exact tag (empty b (by rw [TAGS_PER_GPR]; omega))
  · intro none b _
    by_contra tag
    have byte : GprByte row b := by
      by_contra out
      exact tag (spare row b out)
    exact none ⟨byte.first, byte.last, b, byte.byte, tag⟩

/-- From a fresh thread context on, in every state that is reached: only the index of a
summary into the argument values can be out of bounds, never one into the register file; only
bytes of the sixteen registers are tainted; and the mask has the bit of a row exactly if the
row has a tainted byte, so with a zero mask no register is tainted. -/
theorem reg_file_in_use (fresh : s.FreshThread) (run : Run InsertedStep s es t) :
    (∀ e : Event, e.Inserted → (∀ v ∈ e.tags, t.sets.Knows v) →
      e.run t = .error .outOfBounds → ¬ e.FirstOk) ∧
    (∀ row b, ¬ GprByte row b → t.labelsOf (.reg row b) = ∅) ∧
    ∃ m, libdftComputeGprMask t = .ok (m, t) ∧
      (∀ n, m.getLsbD n = false ↔ ∀ b < TAGS_PER_GPR, t.labelsOf (.reg n b) = ∅) ∧
      (m = 0 → ∀ row b, t.labelsOf (.reg row b) = ∅) := by
  obtain ⟨sound, spare⟩ := fresh.run run
  have empty : ∀ row b, t.labelsOf (.reg row b) = ∅ ↔ t.gprFile row b = clearedVal :=
    fun row b => sound.labelsOf_eq_empty _
  simp only [empty]
  refine ⟨fun e ins known bad first => ?_, spare, ?_⟩
  · have flow := ins.flow first Set.univ (Set.subset_univ _)
    obtain ⟨returns, faults⟩ := flow t ⟨sound, sound.within_univ⟩ (Event.holds_of_known known)
    by_cases guard : ∀ a ∈ e.reads, a ≤ lastAddress
    · obtain ⟨r, u, ok, -⟩ := returns guard
      rw [bad] at ok
      cases ok
    · rw [faults guard] at bad
      cases bad
  · obtain ⟨m, get, bits⟩ := libdftComputeGprMask_run t
    have clear : ∀ n, m.getLsbD n = false ↔ ∀ b < TAGS_PER_GPR, t.gprFile n b = clearedVal := by
      intro n
      rw [spare.row_iff, ← bits, Bool.not_eq_true]
    refine ⟨m, get, clear, ?_⟩
    rintro rfl row b
    by_cases hb : b < TAGS_PER_GPR
    · exact (clear row).mp (by simp) b hb
    · exact spare row b fun byte => hb (byte.byte.trans (by decide))

end Runs

/-- AH is painted with offset 5 of the input. -/
def ahTainted : Shadow :=
  (Shadow.new.withSets (Tag.set 5 tagmapAlloc).2).withGpr DFT_REG_RAX 1 (Tag.set 5 tagmapAlloc).1

theorem ahTainted_run : Run InsertedStep Shadow.new
    [.call (.makeTag 5), .call (.setRegTag (.high .ah) ⟨1⟩)] ahTainted := by
  have first : InsertedStep Shadow.new (.call (.makeTag 5))
      (Shadow.new.withSets (Tag.set 5 tagmapAlloc).2) :=
    ⟨trivial, by simp [Event.tags, Api.Call.tags], .returned, rfl⟩
  have second : InsertedStep (Shadow.new.withSets (Tag.set 5 tagmapAlloc).2)
      (.call (.setRegTag (.high .ah) ⟨1⟩)) ahTainted := by
    refine ⟨trivial, ?_, .returned, rfl⟩
    rintro v rfl
    exact (SetTable.tagSet_live SetTable.tagmapAlloc_exact.live 5).2
  exact .snoc (.snoc .nil first) second

theorem reg_file_in_use_ah :
    libdftComputeGprMask ahTainted = .ok (0x400#32, ahTainted) ∧
      (∀ b < TAGS_PER_GPR, ahTainted.labelsOf (.reg GRP_NUM b) = ∅) ∧
      ¬ ∀ b < TAGS_PER_GPR, ahTainted.labelsOf (.reg DFT_REG_RAX b) = ∅ := by
  obtain ⟨-, spare, m, get, bits, -⟩ :=
    reg_file_in_use ⟨Shadow.new_sound, fun _ _ => rfl⟩ ahTainted_run
  have mask : libdftComputeGprMask ahTainted = .ok (0x400#32, ahTainted) := rfl
  obtain rfl : (0x400#32 : UINT32) = m := by simpa [mask] using get
  refine ⟨mask, fun b _ => spare _ b fun byte => absurd byte.last (by decide), ?_⟩
  rw [← bits]
  decide

end LibdftDr
