import LibdftDr.Core.Places
import LibdftDr.Core.Transfer

/-!
# PUSH and POP

Both inserters pass over the stack pointer among the operands, also where it is the operand that
is pushed or popped. A PUSH of an immediate has an opcode of its own in DynamoRIO, which is not
routed, and a PUSH of memory copies forward. `push_pop_iff` says when POP still gets the tags of
what was pushed.
-/
namespace LibdftDr
open Library Library.Action

/-- What PUSH takes. -/
inductive Pushed where
  | reg (g : Gpr)
  | imm (v : UINT64)
  | mem (m : MemRef)

def Pushed.opnd : Pushed → Opnd
  | reg g => .reg (.gpr g .b8)
  | imm v => .immed v
  | mem m => .mem m

/-- PUSH as DynamoRIO lists it. The opcode for an immediate, `OP_push_imm`, is none that the
router knows. -/
structure Instr.IsPush (instr : Instr) (p : Pushed) (slot : MemRef) : Prop where
  opcode : instr.opcode = .push ∨ (∃ v, p = .imm v) ∧ instr.opcode = .other
  dsts : instr.dsts = [.reg (.gpr .rsp .b8), .mem slot]
  srcs : instr.srcs = [p.opnd, .reg (.gpr .rsp .b8)]
  size : slot.size = 8

/-- POP of the 64-bit register `g`. -/
structure Instr.IsPop (instr : Instr) (g : Gpr) (slot : MemRef) : Prop where
  opcode : instr.opcode = .pop
  dsts : instr.dsts = [.reg (.gpr g .b8), .reg (.gpr .rsp .b8)]
  srcs : instr.srcs = [.reg (.gpr .rsp .b8), .mem slot]
  size : slot.size = 8

/-- The PUSH is not seen: its operand is taken for the implicit one, or its opcode is unknown. -/
def pushMissed (opcode : Opcode) : Pushed → Bool
  | .reg g => decide (g = .rsp)
  | .imm _ => decide (opcode ≠ .push)
  | .mem _ => false

def pushCall (cpu : Cpu) (slot : MemRef) : Pushed → CleanCall
  | .reg g => .movR2m (cpu.ea slot) g.row 0 8
  | .imm _ => .movClrMem (cpu.ea slot) 8
  | .mem m => .m2mXfer (cpu.ea slot) (cpu.ea m) 8

section Inserted

variable {cpu : Cpu} {instr : Instr} {p : Pushed} {g : Gpr} {slot : MemRef}

theorem isStackPtrReg_gpr (g : Gpr) : isStackPtrReg (.gpr g .b8) = decide (g = .rsp) := by
  cases g <;> rfl

theorem Instr.IsPush.inserted (push : instr.IsPush p slot) (scratch : cpu.scratch = true) :
    insInspectDr cpu instr =
      if pushMissed instr.opcode p then [] else [pushCall cpu slot p] := by
  have routed : instr.opcode = .push → insInspectDr cpu instr = insertPush cpu instr :=
    fun h => by simp [insInspectDr, h]
  have mem : (memRefs instr.dsts).head? = some slot := by rw [push.dsts]; rfl
  cases p with
  | reg g =>
    obtain h | ⟨⟨v, hv⟩, -⟩ := push.opcode
    · rw [routed h, insertPush, mem, push.srcs]
      by_cases sp : g = .rsp
      · simp [Pushed.opnd, pushMissed, sp, isStackPtrReg]
      · simp [Pushed.opnd, pushMissed, isStackPtrReg_gpr, sp, insertMovR2m, regShadowSpan_gpr,
          withMemAddr_of_scratch scratch, pushCall, RegWidth.bytes]
    · cases hv
  | imm v =>
    obtain h | ⟨-, h⟩ := push.opcode
    · rw [routed h, insertPush, mem, push.srcs]
      simp [Pushed.opnd, pushMissed, h, insertMovClrMem, push.size, withMemAddr_of_scratch scratch,
        pushCall]
    · simp [insInspectDr, h, pushMissed]
  | mem m =>
    obtain h | ⟨⟨v, hv⟩, -⟩ := push.opcode
    · rw [routed h, insertPush, mem, push.srcs]
      simp [Pushed.opnd, pushMissed, insertM2mXfer, push.size, withMemAddr2, scratch, pushCall]
    · cases hv

theorem Instr.IsPop.inserted (pop : instr.IsPop g slot) (scratch : cpu.scratch = true) :
    insInspectDr cpu instr =
      if g = .rsp then [] else [.movM2r g.row 0 (cpu.ea slot) 8] := by
  have routed : insInspectDr cpu instr = insertPop cpu instr := by simp [insInspectDr, pop.opcode]
  have mem : (memRefs instr.srcs).head? = some slot := by rw [pop.srcs]; rfl
  rw [routed, insertPop, mem, pop.dsts]
  by_cases sp : g = .rsp
  · simp [sp, isStackPtrReg]
  · simp [isStackPtrReg_gpr, sp, insertMovM2r, regShadowSpan_gpr, RegId.regIsGpr,
      withMemAddr_of_scratch scratch, RegWidth.bytes]

end Inserted

/-! ## The round trip -/

/-- The tag of byte `i` of what is pushed. -/
def Shadow.pushedTag (s : Shadow) (cpu : Cpu) (i : ℕ) : Pushed → Tag
  | .reg g => s.cell (.reg g.row i)
  | .imm _ => clearedVal
  | .mem m => s.cell (.mem (byteAt (cpu.ea m) i))

/-- Memory that is pushed lies in user memory. -/
def Pushed.Readable (cpu : Cpu) (p : Pushed) : Prop :=
  ∀ m, p = .mem m → InRange (cpu.ea m) 8

/-- The slot holds what is pushed already if the PUSH is not seen; a copy does not smear. -/
def Shadow.Arrives (s : Shadow) (cpu : Cpu) (opcode : Opcode) (p : Pushed) (slot : MemRef) : Prop :=
  if pushMissed opcode p then
    ∀ i < 8, s.cell (.mem (byteAt (cpu.ea slot) i)) = s.pushedTag cpu i p
  else ∀ m, p = .mem m → ¬ s.Smears (cpu.ea slot) (cpu.ea m) 8

/-- Only the slot differs. -/
structure Shadow.SameOffSlot (s t : Shadow) (addr : ADDRINT) : Prop where
  sets : t.sets = s.sets
  frame : ∀ c ∉ memSpan addr 8, t.cell c = s.cell c

section Push

variable {cpu : Cpu} {instr : Instr} {p : Pushed} {slot : MemRef} {s : Shadow} {app : AppView}
  {limitOffset : INT32}

variable (app limitOffset) in
theorem movR2m_run {addr : ADDRINT} {row : ℕ} (h : GprSpan row 0 8) (ha : InRange addr 8) :
    ∃ t, runCalls app limitOffset [.movR2m addr row 0 8] s = .ok ([], t) ∧
      s.SameOffSlot t addr ∧ ∀ i < 8, t.cell (.mem (byteAt addr i)) = s.cell (.reg row i) := by
  have silent : (CleanCall.movR2m addr row 0 8).run app limitOffset =
    CleanCall.silent (movR2m addr row 0 8) := rfl
  obtain ⟨t, run, sets, cells⟩ := runCalls_tags silent (Meaning.movR2m_does (m := s.cell) h ha)
  refine ⟨t, run, ⟨sets, fun c hc => ?_⟩, fun i hi => ?_⟩
  · rw [cells]
    refine puts_frame fun i hi same => hc ?_
    rw [same]
    exact mem_memSpan_self hi
  · rw [cells, puts_apply _ hi, Nat.zero_add]
    refine fun i hi j lt => ⟨nofun, fun same => ?_⟩
    have := Place.byteAt_inj (by omega) (by omega) (Cell.mem.inj same)
    omega

variable (app limitOffset) in
theorem movClrMem_run {addr : ADDRINT} (ha : InRange addr 8) :
    ∃ t, runCalls app limitOffset [.movClrMem addr 8] s = .ok ([], t) ∧
      s.SameOffSlot t addr ∧ ∀ i < 8, t.cell (.mem (byteAt addr i)) = clearedVal := by
  have eight : (8#32).toNat = 8 := rfl
  have range : InRange addr (8#32).toNat := eight ▸ ha
  have run : movClrMem addr 8 s = .ok (⟨⟩, s.withTagDir (fileTagmapClrn s.tagDir addr 8#32)) := rfl
  refine ⟨_, runCalls_silent (c := .movClrMem addr 8) rfl run, ⟨rfl, fun c hc => ?_⟩,
    fun i hi => ?_⟩
  · exact clrn_frame s range (by rwa [eight])
  · exact clrn_empties s range (by rwa [eight])

variable (app limitOffset) in
theorem Instr.IsPush.run (push : instr.IsPush p slot) (scratch : cpu.scratch = true)
    (range : InRange (cpu.ea slot) 8) (readable : p.Readable cpu) :
    ∃ u, runCalls app limitOffset (insInspectDr cpu instr) s = .ok ([], u) ∧
      s.SameOffSlot u (cpu.ea slot) ∧
      ((∀ i < 8, u.cell (.mem (byteAt (cpu.ea slot) i)) = s.pushedTag cpu i p) ↔
        s.Arrives cpu instr.opcode p slot) := by
  rw [push.inserted scratch, Shadow.Arrives]
  cases missed : pushMissed instr.opcode p with
  | true => exact ⟨s, rfl, ⟨rfl, fun _ _ => rfl⟩, Iff.rfl⟩
  | false =>
    simp only [Bool.false_eq_true, if_false]
    cases p with
    | reg g =>
      have h : GprSpan g.row 0 8 := GprSpan.of_le (Nat.lt_succ_of_lt g.row_lt) (by omega)
      obtain ⟨u, run, same, arrived⟩ := movR2m_run (s := s) app limitOffset h range
      exact ⟨u, run, same, iff_of_true arrived fun _ h => nomatch h⟩
    | imm v =>
      obtain ⟨u, run, same, arrived⟩ := movClrMem_run (s := s) app limitOffset range
      exact ⟨u, run, same, iff_of_true arrived fun _ h => nomatch h⟩
    | mem m =>
      have src := readable m rfl
      obtain ⟨dir, run, copied⟩ := m2mXfer_run (s := s) range src
      refine ⟨_, runCalls_silent (c := .m2mXfer _ _ _) rfl run,
        ⟨rfl, fun c hc => Shadow.cell_of_forwardCopy copied hc⟩, ?_⟩
      have moved := Shadow.moved_iff range src copied
      constructor
      · rintro bytes _ ⟨⟩
        exact moved.mp ⟨bytes, fun c hc => Shadow.cell_of_forwardCopy copied hc, rfl⟩
      · exact fun h => (moved.mpr (h m rfl)).bytes

/-- A PUSH that is executed has read its operand. -/
theorem Instr.IsPush.readable_of_run (push : instr.IsPush p slot) (scratch : cpu.scratch = true)
    (sound : s.Sound) {recs : List Record} {u : Shadow}
    (run : runCalls app limitOffset (insInspectDr cpu instr) s = .ok (recs, u)) :
    p.Readable cpu := by
  rintro m rfl
  rw [push.inserted scratch] at run
  exact inRange_iff.mpr (runCalls_reads (c := pushCall cpu slot (.mem m)) trivial sound run)

end Push

theorem Instr.IsPop.run {cpu : Cpu} {instr : Instr} {g : Gpr} {slot : MemRef} {s : Shadow}
    (app : AppView) (limitOffset : INT32) (pop : instr.IsPop g slot) (scratch : cpu.scratch = true)
    (range : InRange (cpu.ea slot) 8) :
    ∃ t, runCalls app limitOffset (insInspectDr cpu instr) s = .ok ([], t) ∧ t.sets = s.sets ∧
      (∀ c, (∀ i < 8, c ≠ .reg g.row i) → t.cell c = s.cell c) ∧
      ∀ i < 8, t.cell (.reg g.row i) = if g = .rsp then s.cell (.reg g.row i)
        else s.cell (.mem (byteAt (cpu.ea slot) i)) := by
  rw [pop.inserted scratch]
  split_ifs with sp
  · exact ⟨s, rfl, rfl, fun _ _ => rfl, fun _ _ => rfl⟩
  · have h : GprSpan g.row 0 8 := GprSpan.of_le (Nat.lt_succ_of_lt g.row_lt) (by omega)
    have silent : (CleanCall.movM2r g.row 0 (cpu.ea slot) 8).run app limitOffset =
      CleanCall.silent (movM2r g.row 0 (cpu.ea slot) 8) := rfl
    obtain ⟨t, run, sets, cells⟩ := runCalls_tags silent
      (Meaning.movM2r_does (m := s.cell) h range)
    have row : ∀ i, Cell.reg g.row (0 + i) = .reg g.row i := fun i => by rw [Nat.zero_add]
    simp only [row] at cells
    refine ⟨t, run, sets, fun c hc => ?_, fun i hi => ?_⟩
    · rw [cells]
      exact puts_frame hc
    · rw [cells]
      refine puts_apply (d := fun i => .reg g.row i) (fun i hi j lt => ⟨nofun, fun same => ?_⟩) hi
      have := (Cell.reg.inj same).2
      omega

/-- After PUSH and POP the register holds what was pushed, and only it and the slot differ. -/
structure Shadow.RoundTrip (s t : Shadow) (cpu : Cpu) (p : Pushed) (g : Gpr) (addr : ADDRINT) :
    Prop where
  arrived : ∀ i < 8, t.cell (.reg g.row i) = s.pushedTag cpu i p
  sets : t.sets = s.sets
  frame : ∀ c ∉ memSpan addr 8, (∀ i < 8, c ≠ .reg g.row i) → t.cell c = s.cell c

/-- What is pushed can be read, and arrives. A POP of RSP is not seen, so RSP holds it already. -/
def Shadow.TripCovered (s : Shadow) (cpu : Cpu) (opcode : Opcode) (p : Pushed) (g : Gpr)
    (slot : MemRef) : Prop :=
  p.Readable cpu ∧
    if g = .rsp then ∀ i < 8, s.cell (.reg DFT_REG_RSP i) = s.pushedTag cpu i p
    else s.Arrives cpu opcode p slot

theorem Instr.IsPush.roundTrip_iff {cpu cpu' : Cpu} {push pop : Instr} {p : Pushed} {g : Gpr}
    {slot slot' : MemRef} {s : Shadow} {app app' : AppView} {limitOffset : INT32}
    (hpush : push.IsPush p slot) (hpop : pop.IsPop g slot') (scratch : cpu.scratch = true)
    (scratch' : cpu'.scratch = true) (same : cpu'.ea slot' = cpu.ea slot)
    (range : InRange (cpu.ea slot) 8) (sound : s.Sound) :
    (∃ recs u recs' t, runCalls app limitOffset (insInspectDr cpu push) s = .ok (recs, u) ∧
      runCalls app' limitOffset (insInspectDr cpu' pop) u = .ok (recs', t) ∧
      s.RoundTrip t cpu p g (cpu.ea slot)) ↔ s.TripCovered cpu push.opcode p g slot := by
  have range' : InRange (cpu'.ea slot') 8 := same ▸ range
  have trip : p.Readable cpu → ∃ u t,
      runCalls app limitOffset (insInspectDr cpu push) s = .ok ([], u) ∧
      runCalls app' limitOffset (insInspectDr cpu' pop) u = .ok ([], t) ∧
      (s.RoundTrip t cpu p g (cpu.ea slot) ↔ s.TripCovered cpu push.opcode p g slot) := by
    intro readable
    obtain ⟨u, run, off, arrives⟩ := hpush.run (s := s) app limitOffset scratch range readable
    obtain ⟨t, run', sets, frame, popped⟩ := hpop.run (s := u) app' limitOffset scratch' range'
    rw [same] at popped
    refine ⟨u, t, run, run', ?_⟩
    have rest : ∀ c ∉ memSpan (cpu.ea slot) 8, (∀ i < 8, c ≠ .reg g.row i) → t.cell c = s.cell c :=
      fun c hc hr => (frame c hr).trans (off.frame c hc)
    have got : (∀ i < 8, t.cell (.reg g.row i) = s.pushedTag cpu i p) ↔
        if g = .rsp then ∀ i < 8, s.cell (.reg DFT_REG_RSP i) = s.pushedTag cpu i p
        else s.Arrives cpu push.opcode p slot := by
      split_ifs with sp
      · subst sp
        refine forall₂_congr fun i hi => ?_
        rw [popped i hi, if_pos rfl, off.frame _ reg_not_mem_memSpan]
        rfl
      · rw [← arrives]
        refine forall₂_congr fun i hi => ?_
        rw [popped i hi, if_neg sp]
    exact ⟨fun h => ⟨readable, got.mp h.arrived⟩,
      fun h => ⟨got.mpr h.2, sets.trans off.sets, rest⟩⟩
  constructor
  · rintro ⟨recs, u, recs', t, run, run', h⟩
    obtain ⟨u', t', pushed, popped, iff⟩ := trip (hpush.readable_of_run scratch sound run)
    cases pushed.symm.trans run
    cases popped.symm.trans run'
    exact iff.mp h
  · intro covered
    obtain ⟨u, t, pushed, popped, iff⟩ := trip covered.1
    exact ⟨[], u, [], t, pushed, popped, iff.mpr covered⟩

/-- PUSH and POP of one slot hand the tags on if and only if both are seen and a pushed operand
in memory is not smeared, or the tags are where they should be already. -/
theorem push_pop_iff {cpu cpu' : Cpu} {push pop : Instr} {p : Pushed} {g : Gpr}
    {slot slot' : MemRef} {s : Shadow} (app app' : AppView) (limitOffset : INT32)
    (hpush : push.IsPush p slot) (hpop : pop.IsPop g slot') (scratch : cpu.scratch = true)
    (scratch' : cpu'.scratch = true) (same : cpu'.ea slot' = cpu.ea slot)
    (range : InRange (cpu.ea slot) 8) (sound : s.Sound) :
    (∃ recs u recs' t, runCalls app limitOffset (insInspectDr cpu push) s = .ok (recs, u) ∧
      runCalls app' limitOffset (insInspectDr cpu' pop) u = .ok (recs', t) ∧
      s.RoundTrip t cpu p g (cpu.ea slot)) ↔ s.TripCovered cpu push.opcode p g slot :=
  hpush.roundTrip_iff hpop scratch scratch' same range sound

/-- The eight bytes at `disp` from RSP. -/
def stackSlot (disp : INT32) : MemRef where
  size := 8
  baseDisp := true
  base := .gpr .rsp .b8
  index := .null
  scale := 0
  disp := disp
  size_le := le_rfl

/-- `push rax`. -/
def pushRax : Instr where
  opcode := .push
  dsts := [.reg (.gpr .rsp .b8), .mem (stackSlot (-8))]
  srcs := [.reg (.gpr .rax .b8), .reg (.gpr .rsp .b8)]
  predicate := .none
  pc := 0x401000

/-- `pop g`. -/
def popGpr (g : Gpr) : Instr where
  opcode := .pop
  dsts := [.reg (.gpr g .b8), .reg (.gpr .rsp .b8)]
  srcs := [.reg (.gpr .rsp .b8), .mem (stackSlot 0)]
  predicate := .none
  pc := 0x401001

theorem pushRax_isPush : pushRax.IsPush (.reg .rax) (stackSlot (-8)) := ⟨.inl rfl, rfl, rfl, rfl⟩

theorem popGpr_isPop (g : Gpr) : (popGpr g).IsPop g (stackSlot 0) := ⟨rfl, rfl, rfl, rfl⟩

theorem upperTainted_not_tripCovered :
    ¬ upperTainted.TripCovered idleCpu .push (.reg .rax) .rsp (stackSlot (-8)) := by
  rintro ⟨-, held⟩
  exact absurd (held 4 (by decide)) (by decide)

/-- With a tainted byte 4 of RAX, `push rax` and `pop rbx` are right, `push rax` and `pop rsp`
are not. -/
theorem push_pop_iff_rax :
    (∃ recs u recs' t, runCalls idleApp 4 (insInspectDr idleCpu pushRax) upperTainted =
      .ok (recs, u) ∧ runCalls idleApp 4 (insInspectDr idleCpu (popGpr .rbx)) u = .ok (recs', t) ∧
      upperTainted.RoundTrip t idleCpu (.reg .rax) .rbx 0) ∧
    ¬ ∃ recs u recs' t, runCalls idleApp 4 (insInspectDr idleCpu pushRax) upperTainted =
      .ok (recs, u) ∧ runCalls idleApp 4 (insInspectDr idleCpu (popGpr .rsp)) u = .ok (recs', t) ∧
      upperTainted.RoundTrip t idleCpu (.reg .rax) .rsp 0 := by
  have range : InRange (idleCpu.ea (stackSlot (-8))) 8 := inRange_of_toNat_le (by decide)
  constructor
  · exact (push_pop_iff idleApp idleApp 4 pushRax_isPush (popGpr_isPop .rbx) rfl rfl rfl range
      upperTainted_sound).mpr
      ⟨fun _ h => (nomatch h), fun _ h => nomatch h⟩
  · exact fun trip => upperTainted_not_tripCovered ((push_pop_iff idleApp idleApp 4 pushRax_isPush
      (popGpr_isPop .rsp) rfl rfl rfl range upperTainted_sound).mp trip)

/-- `push rax` and `pop rsp` with a tainted byte 4 of RAX leave RSP untainted. -/
theorem pop_skips_rsp :
    ¬ ∀ (cpu cpu' : Cpu) (push pop : Instr) (p : Pushed) (g : Gpr) (slot slot' : MemRef)
      (s : Shadow) (app app' : AppView) (limitOffset : INT32), push.IsPush p slot →
      pop.IsPop g slot' → cpu.scratch = true → cpu'.scratch = true → cpu'.ea slot' = cpu.ea slot →
      InRange (cpu.ea slot) 8 → p.Readable cpu → s.Sound →
      ∃ recs u recs' t, runCalls app limitOffset (insInspectDr cpu push) s = .ok (recs, u) ∧
        runCalls app' limitOffset (insInspectDr cpu' pop) u = .ok (recs', t) ∧
        s.RoundTrip t cpu p g (cpu.ea slot) := by
  intro claim
  have range : InRange (idleCpu.ea (stackSlot (-8))) 8 := inRange_of_toNat_le (by decide)
  have readable : (Pushed.reg .rax).Readable idleCpu := fun _ h => nomatch h
  have trip := claim idleCpu idleCpu pushRax (popGpr .rsp) (.reg .rax) .rsp (stackSlot (-8))
    (stackSlot 0) upperTainted idleApp idleApp 4 pushRax_isPush (popGpr_isPop .rsp) rfl rfl rfl
    range readable upperTainted_sound
  exact upperTainted_not_tripCovered ((pushRax_isPush.roundTrip_iff (popGpr_isPop .rsp) rfl rfl rfl
    range upperTainted_sound).mp trip)

end LibdftDr
