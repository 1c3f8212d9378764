import LibdftDr.Core.Inserted

/-!
# 32-bit destinations

An x86-64 write to a 32-bit register clears the upper half of its parent. The handlers write
the low four shadow bytes and leave the other four as they were: after an instruction with a
32-bit destination the upper half is untainted exactly when it was before.
-/
namespace LibdftDr
open Library

/-- The calls of one instruction in order, with the records they emit. -/
def runCalls (app : AppView) (limitOffset : INT32) : List CleanCall → Engine (List Record)
  | [] => pure []
  | c :: cs => do
    let r ← c.run app limitOffset
    let rs ← runCalls app limitOffset cs
    pure (r.toList ++ rs)

section Flows

variable {D : Set Cell} {L : Set ℕ} {held : Set Tag}

theorem runCalls_flow {app : AppView} {limitOffset : INT32} {cs : List CleanCall}
    (bounds : ∀ c ∈ cs, c.InBounds) (writes : ∀ c ∈ cs, c.writes ⊆ D) :
    Flow D L held (∀ c ∈ cs, ∀ a ∈ c.reads app, a ≤ lastAddress) (fun _ => ∅)
      (runCalls app limitOffset cs) := by
  induction cs generalizing held with
  | nil => exact (skip_flow []).guard_iff (by simp)
  | cons c cs ih =>
    have first : Flow D L held (∀ a ∈ c.reads app, a ≤ lastAddress) (fun _ => ∅)
        (c.run app limitOffset) :=
      (CleanCall.flow (bounds c List.mem_cons_self)).mono (writes c List.mem_cons_self)
    refine (first.bind fun r => (ih (fun d hd => bounds d (.tail c hd))
      fun d hd => writes d (.tail c hd)).bind fun rs => skip_flow _).guard_iff ?_
    simp

end Flows

/-- One of the destinations of the 32-bit instruction is the 32-bit view of `g`. -/
structure Instr.Writes32 (instr : Instr) (g : Gpr) : Prop extends instr.Is32 where
  dst : Opnd.reg (.gpr g .b4) ∈ instr.dsts

section Kept

variable {cpu : Cpu} {app : AppView} {limitOffset : INT32} {instr : Instr} {s t : Shadow}
  {recs : List Record}

theorem Instr.Is32.decoded (h : instr.Is32) : instr.Decoded := by
  intro hop r hr
  have narrow := h.narrow (by rintro e; simp [e] at hop)
  have : r.sizeInBytes ≤ 4 := narrow.dst_head hr
  omega

/-- The register bytes from the fifth on. -/
def upperBytes : Set Cell := {c | ∃ row b, 4 ≤ b ∧ c = .reg row b}

theorem runCalls_is32_flow {L : Set ℕ} (cpu : Cpu) (app : AppView) (limitOffset : INT32)
    (h : instr.Is32) :
    Flow (Set.compl upperBytes) L ∅
      (∀ c ∈ insInspectDr cpu instr, ∀ a ∈ c.reads app, a ≤ lastAddress) (fun _ => ∅)
      (runCalls app limitOffset (insInspectDr cpu instr)) := by
  have fits : Fits instr.Is32 (insInspectDr cpu instr) := insInspectDr_fits h.decoded
  refine runCalls_flow (fun c hc => (fits c hc).1) fun c hc cell hcell => ?_
  rintro ⟨row, b, hb, rfl⟩
  exact (fits c hc).2 h row b hb hcell

theorem upper_bytes_kept (h : instr.Is32) (sound : s.Sound)
    (run : runCalls app limitOffset (insInspectDr cpu instr) s = .ok (recs, t)) (row b : ℕ)
    (hb : 4 ≤ b) : t.cell (.reg row b) = s.cell (.reg row b) := by
  obtain ⟨-, -, -, le⟩ :=
    (runCalls_is32_flow cpu app limitOffset h).of_ok sound sound.within_labels run
  exact le.frame _ fun hn => hn ⟨row, b, hb, rfl⟩

end Kept

/-- Bytes 4 to 7 of the parent of `g` are untainted. -/
def Shadow.UpperEmpty (s : Shadow) (g : Gpr) : Prop :=
  ∀ b, 4 ≤ b → b < 8 → s.cell (.reg g.row b) = clearedVal

/-- After an instruction with a 32-bit destination, the upper half of the destination's parent
is untainted if and only if it was untainted before. -/
theorem upper_half_empty_iff {cpu : Cpu} {app : AppView} {limitOffset : INT32} {instr : Instr}
    {g : Gpr} {s t : Shadow} {recs : List Record} (w : instr.Writes32 g) (sound : s.Sound)
    (run : runCalls app limitOffset (insInspectDr cpu instr) s = .ok (recs, t)) :
    t.UpperEmpty g ↔ s.UpperEmpty g := by
  simp only [Shadow.UpperEmpty]
  exact forall_congr' fun b => imp_congr_right fun lo => by
    rw [upper_bytes_kept w.toIs32 sound run g.row b lo]

/-- `mov eax, ebx`. -/
def movEaxEbx : Instr where
  opcode := .movSt
  dsts := [.reg (.gpr .rax .b4)]
  srcs := [.reg (.gpr .rbx .b4)]
  predicate := .none
  pc := 0x401000

def idleCpu : Cpu := ⟨fun _ => 0, fun _ => 0, true⟩

def idleApp : AppView := ⟨fun _ => none, 0⟩

theorem movEaxEbx_writes32 : movEaxEbx.Writes32 .rax where
  notLeave := by decide
  width o ho := by
    simp only [movEaxEbx, List.singleton_append, List.mem_cons, List.not_mem_nil, or_false] at ho
    obtain rfl | rfl := ho <;> exact .inl (by decide)
  accum h := by cases h
  dst := List.mem_singleton.mpr rfl

/-- Byte 4 of RAX carries offset 0 of the input. -/
def upperTainted : Shadow :=
  (Shadow.new.withSets (Tag.set 0 tagmapAlloc).2).withGpr DFT_REG_RAX 4 (Tag.set 0 tagmapAlloc).1

theorem upperTainted_sound : upperTainted.Sound := by
  have paint : Flow Set.univ Set.univ ∅ True (fun _ => ∅)
      (do let t ← setTag 0; gprSet DFT_REG_RAX 4 t) :=
    copy_flow (setTag_flow (Set.mem_univ _)) fun t =>
      gprSet_flow (by decide) (by simp) (Set.mem_univ _)
  have run : (do let t ← setTag 0; gprSet DFT_REG_RAX 4 t : Engine PUnit) Shadow.new =
      .ok (⟨⟩, upperTainted) := rfl
  exact (paint.of_ok Shadow.new_sound Shadow.new_sound.within_univ run).2.1

theorem movEaxEbx_returns :
    ∃ recs t, runCalls idleApp 4 (insInspectDr idleCpu movEaxEbx) upperTainted = .ok (recs, t) := by
  have call : insInspectDr idleCpu movEaxEbx = [.r2rXfer DFT_REG_RAX 0 DFT_REG_RBX 0 4] := rfl
  obtain ⟨returns, -⟩ := runCalls_is32_flow idleCpu idleApp 4 movEaxEbx_writes32.toIs32 upperTainted
    ⟨upperTainted_sound, upperTainted_sound.within_labels⟩ (by simp)
  obtain ⟨recs, t, run, -⟩ := returns (by simp [call, CleanCall.reads])
  exact ⟨recs, t, run⟩

theorem upperTainted_not_upperEmpty : ¬ upperTainted.UpperEmpty .rax := by
  intro h
  exact absurd (h 4 (by decide) (by decide)) (by decide)

/-- `mov eax, ebx` with a tainted byte 4 of RAX leaves that byte tainted. -/
theorem upper_half_empty_iff_mov : ∃ recs t,
    runCalls idleApp 4 (insInspectDr idleCpu movEaxEbx) upperTainted = .ok (recs, t) ∧
      ¬ t.UpperEmpty .rax := by
  obtain ⟨recs, t, run⟩ := movEaxEbx_returns
  exact ⟨recs, t, run, fun h => upperTainted_not_upperEmpty
    ((upper_half_empty_iff movEaxEbx_writes32 upperTainted_sound run).mp h)⟩

/-- A 32-bit write does not clear the upper half of its parent. -/
theorem upper_half_not_cleared :
    ¬ ∀ (cpu : Cpu) (app : AppView) (limitOffset : INT32) (instr : Instr) (g : Gpr) (s t : Shadow)
      (recs : List Record), instr.Writes32 g → s.Sound →
      runCalls app limitOffset (insInspectDr cpu instr) s = .ok (recs, t) → t.UpperEmpty g := by
  intro claim
  obtain ⟨recs, t, run⟩ := movEaxEbx_returns
  have cleared := claim _ _ _ _ _ _ _ _ movEaxEbx_writes32 upperTainted_sound run
  refine upperTainted_not_upperEmpty fun b lo hi => ?_
  rw [← upper_bytes_kept movEaxEbx_writes32.toIs32 upperTainted_sound run _ b lo]
  exact cleared b lo hi

end LibdftDr
