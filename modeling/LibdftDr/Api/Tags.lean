import LibdftDr.Core.Operands

/-!
# The public tag interface

The functions of `libdft_dr` that make tags and read or write the shadow: thin wrappers over
the accesses of the engine. A length is a `size_t`; where the engine takes 32 bits it is cut.

`Call` lists them, `Call.flow` says what each may change, bring in and look up.
-/
namespace LibdftDr.Api
open Library Library.Action

/-- `reg_span`, which repeats the register map of `reg_shadow_span`. -/
def regSpan (reg : RegId) : Option Span :=
  if !reg.regIsGpr then none
  else
    match reg.regToPointerSized with
    | .gpr g _ =>
      match reg with
      | .high _ => some ⟨g.row, 1, 1⟩
      | _ => some ⟨g.row, 0, reg.sizeInBytes⟩
    | _ => none

theorem regSpan_eq (reg : RegId) : regSpan reg = regShadowSpan reg := by
  cases reg with
  | gpr g w => rw [regShadowSpan_gpr]; rfl
  | high r => rw [regShadowSpan_high]; rfl
  | null => rfl
  | other => rfl

def makeTag (label : UINT32) : Engine Tag := setTag label

def combine (a b : Tag) : Engine Tag := LibdftDr.combine a b

/-! ## Memory -/

def getMemTag (addr : ADDRINT) : Engine Tag := getb addr

def setMemTag (addr : ADDRINT) (t : Tag) : Engine PUnit := setb addr t

def clearMem (addr : ADDRINT) (n : UINT64) : Engine PUnit := clrn addr (n.setWidth 32)

def getMemTagRange (addr : ADDRINT) (n : UINT64) : Engine Tag :=
  unite n.toNat (fun i => getb (byteAt addr i)) clearedVal

/-! ## Registers -/

def getRegTag (reg : RegId) : Engine Tag :=
  match regSpan reg with
  | none => pure clearedVal
  | some sp => gprGet sp.row sp.start

def getRegTagByte (reg : RegId) (byteIdx : UINT64) : Engine Tag :=
  match regSpan reg with
  | none => pure clearedVal
  | some sp =>
    if sp.n ≤ byteIdx.toNat then pure clearedVal else gprGet sp.row (sp.start + byteIdx.toNat)

def setRegTag (reg : RegId) (t : Tag) : Engine PUnit :=
  match regSpan reg with
  | none => pure ⟨⟩
  | some sp => loop sp.n fun k => gprSet sp.row (sp.start + k) t

def setRegTagByte (reg : RegId) (byteIdx : UINT64) (t : Tag) : Engine PUnit :=
  match regSpan reg with
  | none => pure ⟨⟩
  | some sp =>
    if sp.n ≤ byteIdx.toNat then pure ⟨⟩ else gprSet sp.row (sp.start + byteIdx.toNat) t

def getRegTagRange (reg : RegId) : Engine Tag :=
  match regSpan reg with
  | none => pure clearedVal
  | some sp => unite sp.n (fun k => gprGet sp.row (sp.start + k)) clearedVal

/-! ## Sources and function sinks -/

/-- `syscall_args_t::paint_range`. -/
def paintRange (addr : ADDRINT) (n : UINT64) (label : UINT32) : Engine PUnit :=
  loop n.toNat fun i => do
    let t ← setTag label
    setb (byteAt addr i) t

/-- `syscall_args_t::clear_range`. -/
def clearRange (addr : ADDRINT) (n : UINT64) : Engine PUnit := clrn addr (n.setWidth 32)

/-- `p` is the value of the argument. -/
def argPointedTag (p : ADDRINT) (n : UINT64) : Engine Tag :=
  if n = 0 then pure clearedVal
  else if p = 0 then pure clearedVal
  else unite n.toNat (fun i => getb (byteAt p i)) clearedVal

/-- The loop of `arg_pointed_is_tainted` from byte `i` on. -/
def anyTainted (p : ADDRINT) : (left i : ℕ) → Engine Bool
  | 0, _ => pure false
  | left + 1, i => do
    let b ← getb (byteAt p i)
    if tagCount b then pure true else anyTainted p left (i + 1)

def argPointedIsTainted (p : ADDRINT) (n : UINT64) : Engine Bool :=
  if n = 0 then pure false
  else if p = 0 then pure false
  else anyTainted p n.toNat 0

/-! ## Calls -/

inductive Call where
  | makeTag (label : UINT32)
  | combine (a b : Tag)
  | getMemTag (addr : ADDRINT)
  | setMemTag (addr : ADDRINT) (t : Tag)
  | clearMem (addr : ADDRINT) (n : UINT64)
  | getMemTagRange (addr : ADDRINT) (n : UINT64)
  | getRegTag (reg : RegId)
  | getRegTagByte (reg : RegId) (byteIdx : UINT64)
  | setRegTag (reg : RegId) (t : Tag)
  | setRegTagByte (reg : RegId) (byteIdx : UINT64) (t : Tag)
  | getRegTagRange (reg : RegId)
  | paintRange (addr : ADDRINT) (n : UINT64) (label : UINT32)
  | clearRange (addr : ADDRINT) (n : UINT64)
  | argPointedTag (p : ADDRINT) (n : UINT64)

namespace Call

/-- The tag that the call returns, for a call that returns one. -/
def run : Call → Engine (Option Tag)
  | .makeTag label => some <$> Api.makeTag label
  | .combine a b => some <$> Api.combine a b
  | .getMemTag addr => some <$> Api.getMemTag addr
  | .setMemTag addr t => do Api.setMemTag addr t; pure none
  | .clearMem addr n => do Api.clearMem addr n; pure none
  | .getMemTagRange addr n => some <$> Api.getMemTagRange addr n
  | .getRegTag reg => some <$> Api.getRegTag reg
  | .getRegTagByte reg i => some <$> Api.getRegTagByte reg i
  | .setRegTag reg t => do Api.setRegTag reg t; pure none
  | .setRegTagByte reg i t => do Api.setRegTagByte reg i t; pure none
  | .getRegTagRange reg => some <$> Api.getRegTagRange reg
  | .paintRange addr n label => do Api.paintRange addr n label; pure none
  | .clearRange addr n => do Api.clearRange addr n; pure none
  | .argPointedTag p n => some <$> Api.argPointedTag p n

/-- The bytes of a register, none for one that is not general purpose. -/
def regCells (reg : RegId) : Set Cell :=
  {c | ∃ sp ∈ regSpan reg, c ∈ LibdftDr.regSpan sp.row sp.start sp.n}

def writes : Call → Set Cell
  | .setMemTag addr _ => {.mem addr}
  | .clearMem addr n | .clearRange addr n => memSpan addr (n.setWidth 32 : UINT32).toNat
  | .setRegTag reg _ | .setRegTagByte reg _ _ => regCells reg
  | .paintRange addr n _ => memSpan addr n.toNat
  | _ => ∅

def reads : Call → Set ADDRINT
  | .getMemTag addr => {addr}
  | .getMemTagRange addr n => addrSpan addr n.toNat
  | .argPointedTag p n => {a ∈ addrSpan p n.toNat | p ≠ 0}
  | _ => ∅

/-- The handles that the client passes in. -/
def tags : Call → Set Tag
  | .combine a b => {a, b}
  | .setMemTag _ t | .setRegTag _ t | .setRegTagByte _ _ t => {t}
  | _ => ∅

/-- The label that the client passes in. -/
def labels : Call → Set ℕ
  | .makeTag label | .paintRange _ _ label => {label.toNat}
  | _ => ∅

end Call

section Flows

variable {D : Set Cell} {L : Set ℕ} {held : Set Tag} {addr p : ADDRINT} {n : UINT64} {reg : RegId}
  {t : Tag} {label : UINT32}

theorem regSpan_gprSpan {sp : Span} (h : regSpan reg = some sp) : GprSpan sp.row sp.start sp.n := by
  rw [regSpan_eq] at h
  obtain ⟨row, -, -, bytes⟩ := regShadowSpan_bounds h
  exact ⟨Nat.lt_succ_of_lt row, bytes.trans (by decide)⟩

theorem cleared_flow : Flow D L held True (fun t => {t}) (pure clearedVal) :=
  clearedVal_flow (World.Triple.pure (by simp))

theorem getMemTagRange_flow : Flow D L held (InRange addr n.toNat) (fun t => {t})
    (getMemTagRange addr n) :=
  clearedVal_flow (unite_flow (by simp) fun _ _ _ => getb_flow _)

theorem getRegTag_flow : Flow D L held True (fun t => {t}) (getRegTag reg) := by
  unfold getRegTag
  cases h : regSpan reg with
  | none => exact cleared_flow
  | some sp =>
    have span := regSpan_gprSpan h
    have start : sp.start < TAGS_PER_GPR := by
      rw [regSpan_eq] at h
      exact (regShadowSpan_bounds h).2.1.trans_lt (by decide)
    exact gprGet_flow ⟨span.row, start⟩

theorem getRegTagByte_flow {i : UINT64} :
    Flow D L held True (fun t => {t}) (getRegTagByte reg i) := by
  unfold getRegTagByte
  cases h : regSpan reg with
  | none => exact cleared_flow
  | some sp =>
    simp only
    split_ifs with hi
    · exact cleared_flow
    · exact gprGet_flow ((regSpan_gprSpan h).inFile (not_le.mp hi))

theorem setRegTag_flow (ht : t ∈ held) :
    Flow (Call.regCells reg) L held True (fun _ => ∅) (setRegTag reg t) := by
  unfold setRegTag
  cases h : regSpan reg with
  | none => exact skip_flow _
  | some sp =>
    refine World.Triple.loop_of_true fun k hk => ?_
    exact gprSet_flow ((regSpan_gprSpan h).inFile hk) ht ⟨sp, h, mem_regSpan_self hk⟩

theorem setRegTagByte_flow {i : UINT64} (ht : t ∈ held) :
    Flow (Call.regCells reg) L held True (fun _ => ∅) (setRegTagByte reg i t) := by
  unfold setRegTagByte
  cases h : regSpan reg with
  | none => exact skip_flow _
  | some sp =>
    simp only
    split_ifs with hi
    · exact skip_flow _
    · have hi' := not_le.mp hi
      exact gprSet_flow ((regSpan_gprSpan h).inFile hi') ht ⟨sp, h, mem_regSpan_self hi'⟩

theorem getRegTagRange_flow : Flow D L held True (fun t => {t}) (getRegTagRange reg) := by
  unfold getRegTagRange
  cases h : regSpan reg with
  | none => exact cleared_flow
  | some sp =>
    exact (clearedVal_flow (unite_flow (by simp) fun k hk _ =>
      gprGet_flow ((regSpan_gprSpan h).inFile hk))).guard_iff (by simp)

theorem paintRange_flow (hL : label.toNat ∈ L) :
    Flow (memSpan addr n.toNat) L held True (fun _ => ∅) (paintRange addr n label) :=
  World.Triple.loop_of_true fun _ hi =>
    copy_flow (setTag_flow hL) fun _ => setb_flow (by simp) (mem_memSpan_self hi)

theorem argPointedTag_flow : Flow D L held (p ≠ 0 → InRange p n.toNat) (fun t => {t})
    (argPointedTag p n) := by
  unfold argPointedTag
  split_ifs with hn hp
  · exact cleared_flow.guard_iff (by simp [hn, InRange])
  · exact cleared_flow.guard_iff (by simp [hp])
  · exact getMemTagRange_flow.guard_iff ⟨fun g => g hp, fun g _ => g⟩

theorem returns_flow {G : Prop} {f : Engine Tag} (h : Flow D L held G (fun t => {t}) f) :
    Flow D L held G (fun r => {t | r = some t}) (some <$> f) := by
  rw [map_eq_pure_bind]
  exact (h.bind fun t => World.Triple.pure (by simp)).guard_iff (by simp)

theorem void_flow {G : Prop} {f : Engine PUnit} (h : Flow D L held G (fun _ => ∅) f) :
    Flow D L held G (fun r => {t | r = some t}) (do f; pure none) :=
  (h.bind fun _ => World.Triple.pure (by simp)).guard_iff (by simp)

/-- A call changes its own cells only, brings in the labels it is given, and returns exactly
when every address it looks up is in range. -/
theorem Call.flow {c : Call} (hL : c.labels ⊆ L) (ht : c.tags ⊆ held) :
    Flow c.writes L held (∀ a ∈ c.reads, a ≤ lastAddress) (fun r => {t | r = some t}) c.run := by
  cases c with
  | makeTag => exact (returns_flow (setTag_flow (hL rfl))).guard_iff (by simp [reads])
  | combine =>
    exact (returns_flow (combine_flow (ht (.inl rfl)) (ht (.inr rfl)))).guard_iff (by simp [reads])
  | getMemTag => exact (returns_flow (getb_flow _)).guard_iff (by simp [reads])
  | setMemTag addr =>
    have cell : Cell.mem addr ∈ ({.mem addr} : Set Cell) := rfl
    exact (void_flow (setb_flow (ht rfl) cell)).guard_iff (by simp [reads])
  | clearMem => exact (void_flow (clrn_flow subset_rfl)).guard_iff (by simp [reads])
  | getMemTagRange => exact (returns_flow getMemTagRange_flow).guard_iff inRange_iff.symm
  | getRegTag => exact (returns_flow getRegTag_flow).guard_iff (by simp [reads])
  | getRegTagByte => exact (returns_flow getRegTagByte_flow).guard_iff (by simp [reads])
  | setRegTag => exact (void_flow (setRegTag_flow (ht rfl))).guard_iff (by simp [reads])
  | setRegTagByte => exact (void_flow (setRegTagByte_flow (ht rfl))).guard_iff (by simp [reads])
  | getRegTagRange => exact (returns_flow getRegTagRange_flow).guard_iff (by simp [reads])
  | paintRange => exact (void_flow (paintRange_flow (hL rfl))).guard_iff (by simp [reads])
  | clearRange => exact (void_flow (clrn_flow subset_rfl)).guard_iff (by simp [reads])
  | argPointedTag p n =>
    refine (returns_flow argPointedTag_flow).guard_iff ?_
    rw [inRange_iff]
    exact ⟨fun g hp a ha => g a ⟨ha, hp⟩, fun g a ha => g ha.2 a ha.1⟩

end Flows

/-! ## The early exit -/

/-- Byte `i + k` is looked at by a scan from byte `i` on: the bytes before it are untainted. -/
def Scans (s : Shadow) (p : ADDRINT) (i k : ℕ) : Prop :=
  ∀ j < k, tagCount (s.tagDir.tagAt (byteAt p (i + j))) = false

/-- The bytes that `arg_pointed_is_tainted` looks at: up to the first tainted one. -/
def taintScan (s : Shadow) (p : ADDRINT) (n : UINT64) : Set ADDRINT :=
  {a | p ≠ 0 ∧ ∃ k < n.toNat, Scans s p 0 k ∧ a = byteAt p k}

theorem scans_succ_iff {s : Shadow} {p : ADDRINT} {i k : ℕ} : Scans s p i (k + 1) ↔
    tagCount (s.tagDir.tagAt (byteAt p i)) = false ∧ Scans s p (i + 1) k := by
  have shift : ∀ j, i + 1 + j = i + (j + 1) := fun j => by omega
  simp only [Scans, shift]
  constructor
  · exact fun h => ⟨h 0 (by omega), fun j hj => h (j + 1) (by omega)⟩
  · rintro ⟨first, rest⟩ j hj
    cases j with
    | zero => exact first
    | succ j => exact rest j (by omega)

/-- The scan changes nothing, and faults exactly when it looks above the last user address. -/
theorem anyTainted_run {s : Shadow} {p : ADDRINT} (left i : ℕ) :
    ((∀ k < left, Scans s p i k → byteAt p (i + k) ≤ lastAddress) →
      ∃ b, anyTainted p left i s = .ok (b, s)) ∧
    (¬ (∀ k < left, Scans s p i k → byteAt p (i + k) ≤ lastAddress) →
      anyTainted p left i s = .error .nullDeref) := by
  induction left generalizing i with
  | zero => exact ⟨fun _ => ⟨false, rfl⟩, fun h => absurd (by simp) h⟩
  | succ left ih =>
    rw [anyTainted]
    have look : Scans s p i 0 := by simp [Scans]
    by_cases hr : byteAt p i ≤ lastAddress
    · have read : getb (byteAt p i) s = .ok (s.tagDir.tagAt (byteAt p i), s) := getb_of_le hr s
      rw [bind_of_ok read]
      cases ht : tagCount (s.tagDir.tagAt (byteAt p i)) with
      | true =>
        refine ⟨fun _ => ⟨true, rfl⟩, fun h => absurd (fun k _ hk => ?_) h⟩
        cases k with
        | zero => exact hr
        | succ k => simp [scans_succ_iff, ht] at hk
      | false =>
        -- the rest of the scan is that from the next byte
        have rest : (∀ k < left + 1, Scans s p i k → byteAt p (i + k) ≤ lastAddress) ↔
            ∀ k < left, Scans s p (i + 1) k → byteAt p (i + 1 + k) ≤ lastAddress := by
          have shift : ∀ k, i + 1 + k = i + (k + 1) := fun k => by omega
          constructor
          · intro h k hk hs
            rw [shift]
            exact h (k + 1) (by omega) (scans_succ_iff.mpr ⟨ht, hs⟩)
          · intro h k hk hs
            cases k with
            | zero => exact hr
            | succ k =>
              rw [← shift]
              exact h k (by omega) (scans_succ_iff.mp hs).2
        rw [rest]
        exact ih (i + 1)
    · refine ⟨fun h => absurd (h 0 (by omega) look) hr, fun _ => bind_of_error ?_⟩
      simp [getb, TagDir.getb_of_not_le _ hr]

/-- `arg_pointed_is_tainted` returns exactly when every byte it looks at is in range. -/
theorem argPointedIsTainted_run {s : Shadow} {p : ADDRINT} {n : UINT64} :
    ((∀ a ∈ taintScan s p n, a ≤ lastAddress) → ∃ b, argPointedIsTainted p n s = .ok (b, s)) ∧
    (¬ (∀ a ∈ taintScan s p n, a ≤ lastAddress) →
      argPointedIsTainted p n s = .error .nullDeref) := by
  unfold argPointedIsTainted
  split_ifs with hn hp
  · exact ⟨fun _ => ⟨false, rfl⟩, fun h => absurd (by simp [taintScan, hn]) h⟩
  · exact ⟨fun _ => ⟨false, rfl⟩, fun h => absurd (by simp [taintScan, hp]) h⟩
  · have scan : (∀ a ∈ taintScan s p n, a ≤ lastAddress) ↔
        ∀ k < n.toNat, Scans s p 0 k → byteAt p (0 + k) ≤ lastAddress := by
      simp only [taintScan, Nat.zero_add]
      constructor
      · exact fun h k hk hs => h _ ⟨hp, k, hk, hs, rfl⟩
      · rintro h a ⟨-, k, hk, hs, rfl⟩
        exact h k hk hs
    rw [scan]
    exact anyTainted_run n.toNat 0

end LibdftDr.Api
