import LibdftDr.Core.State

/-!
# The propagation handlers

The clean calls of `libdft_core_dr.cpp` that move tags: transfers, unions, swaps, extensions,
shifts and the read-modify-write families. The comparing handlers are in `Core/Compare`.

Each handler has one `_flow` theorem: the registers and addresses it may change, and the
addresses whose reads decide whether it returns.
-/
namespace LibdftDr
open Library Library.Action

/-! ## MOV -/

def r2rXfer (dstRow dstStart srcRow srcStart n : ℕ) : Engine PUnit :=
  loop n fun i => do
    let t ← gprGet srcRow (srcStart + i)
    gprSet dstRow (dstStart + i) t

def rClr (row start n : ℕ) : Engine PUnit :=
  loop n fun i => gprSet row (start + i) clearedVal

def movM2r (row start : ℕ) (addr : ADDRINT) (n : ℕ) : Engine PUnit :=
  loop n fun i => do
    let t ← getb (byteAt addr i)
    gprSet row (start + i) t

def movR2m (addr : ADDRINT) (row start n : ℕ) : Engine PUnit :=
  loop n fun i => do
    let t ← gprGet row (start + i)
    setb (byteAt addr i) t

def movClrMem (addr : ADDRINT) (n : ℕ) : Engine PUnit := clrn addr (BitVec.ofNat 32 n)

def m2mXfer (dstAddr srcAddr : ADDRINT) (n : ℕ) : Engine PUnit :=
  loop n fun i => do
    let t ← getb (byteAt srcAddr i)
    setb (byteAt dstAddr i) t

/-! ## MUL, DIV, IDIV and one-operand IMUL -/

/-- `src[i]` of the eight-byte local array. -/
def srcTag {k : ℕ} (src : Vector Tag k) (i : ℕ) : Engine Tag :=
  if h : i < k then pure src[i] else fail .outOfBounds

/-- `gpr_file[row][byte] = tag_combine(gpr_file[row][byte], t)`. -/
def gprUnite (row byte : ℕ) (t : Tag) : Engine PUnit := do
  let d ← gprGet row byte
  gprSet row byte (← combine d t)

def ternaryCombine {k : ℕ} (src : Vector Tag k) (n : ℕ) : Engine PUnit :=
  if n = 1 then do
    let t ← srcTag src 0
    gprUnite DFT_REG_RAX 0 t
    gprUnite DFT_REG_RAX 1 t
  else
    loop n fun i => do
      let t ← srcTag src i
      gprUnite DFT_REG_RDX i t
      gprUnite DFT_REG_RAX i t

def ternaryR2r (sRow sStart n : ℕ) : Engine PUnit := do
  let src ← gather (min n 8) fun i => gprGet sRow (sStart + i)
  ternaryCombine src n

def ternaryM2r (addr : ADDRINT) (n : ℕ) : Engine PUnit := do
  let src ← gather (min n 8) fun i => getb (byteAt addr i)
  ternaryCombine src n

/-! ## XCHG -/

def xchgR2r (aRow aStart bRow bStart n : ℕ) : Engine PUnit :=
  loop n fun i => do
    let t ← gprGet aRow (aStart + i)
    let b ← gprGet bRow (bStart + i)
    gprSet aRow (aStart + i) b
    gprSet bRow (bStart + i) t

def xchgM2r (addr : ADDRINT) (row start n : ℕ) : Engine PUnit :=
  loop n fun i => do
    let r ← gprGet row (start + i)
    let m ← getb (byteAt addr i)
    gprSet row (start + i) m
    setb (byteAt addr i) r

/-! ## CMOVcc -/

/-- `DR_PRED_*`. -/
inductive Pred where
  | o | no | b | nb | z | nz | be | nbe | s | ns | p | np | l | nl | le | nle | none
  deriving DecidableEq

def condTriggered (pred : Pred) (flags : UINT64) : Bool :=
  let cf := flags.getLsbD 0
  let pf := flags.getLsbD 2
  let zf := flags.getLsbD 6
  let sf := flags.getLsbD 7
  let of := flags.getLsbD 11
  match pred with
  | .o => of
  | .no => !of
  | .b => cf
  | .nb => !cf
  | .z => zf
  | .nz => !zf
  | .be => cf || zf
  | .nbe => !cf && !zf
  | .s => sf
  | .ns => !sf
  | .p => pf
  | .np => !pf
  | .l => sf != of
  | .nl => sf == of
  | .le => zf || (sf != of)
  | .nle => !zf && (sf == of)
  | .none => false

def cmovR2r (xflags : UINT64) (pred : Pred) (dRow dStart sRow sStart n : ℕ) : Engine PUnit :=
  if condTriggered pred xflags then
    loop n fun i => do
      let t ← gprGet sRow (sStart + i)
      gprSet dRow (dStart + i) t
  else pure ⟨⟩

def cmovM2r (xflags : UINT64) (pred : Pred) (dRow dStart : ℕ) (addr : ADDRINT) (n : ℕ) :
    Engine PUnit :=
  if condTriggered pred xflags then
    loop n fun i => do
      let t ← getb (byteAt addr i)
      gprSet dRow (dStart + i) t
  else pure ⟨⟩

/-! ## ADD, AND, OR, XOR, SBB, SUB -/

def binaryR2r (dRow dStart sRow sStart n : ℕ) : Engine PUnit :=
  loop n fun i => do
    let s ← gprGet sRow (sStart + i)
    gprUnite dRow (dStart + i) s

def binaryM2r (dRow dStart : ℕ) (addr : ADDRINT) (n : ℕ) : Engine PUnit :=
  loop n fun i => do
    let m ← getb (byteAt addr i)
    gprUnite dRow (dStart + i) m

def binaryR2m (addr : ADDRINT) (sRow sStart n : ℕ) : Engine PUnit :=
  loop n fun i => do
    let cur ← getb (byteAt addr i)
    let s ← gprGet sRow (sStart + i)
    setb (byteAt addr i) (← combine cur s)

/-! ## MOVZX, MOVSX, MOVSXD -/

def movzxR2r (dRow sRow sStart srcn dstn : ℕ) : Engine PUnit := do
  loop srcn fun i => do
    let t ← gprGet sRow (sStart + i)
    gprSet dRow i t
  loop (dstn - srcn) fun i => gprSet dRow (srcn + i) clearedVal

def movzxM2r (dRow : ℕ) (addr : ADDRINT) (srcn dstn : ℕ) : Engine PUnit := do
  loop srcn fun i => do
    let t ← getb (byteAt addr i)
    gprSet dRow i t
  loop (dstn - srcn) fun i => gprSet dRow (srcn + i) clearedVal

def movsxR2r (dRow sRow sStart srcn dstn : ℕ) : Engine PUnit :=
  if srcn = 0 then pure ⟨⟩
  else do
    loop srcn fun i => do
      let t ← gprGet sRow (sStart + i)
      gprSet dRow i t
    let sign ← gprGet sRow (sStart + srcn - 1)
    loop (dstn - srcn) fun i => gprSet dRow (srcn + i) sign

def movsxM2r (dRow : ℕ) (addr : ADDRINT) (srcn dstn : ℕ) : Engine PUnit :=
  if srcn = 0 then pure ⟨⟩
  else do
    loop srcn fun i => do
      let t ← getb (byteAt addr i)
      gprSet dRow i t
    let sign ← getb (byteAt addr srcn - 1)
    loop (dstn - srcn) fun i => gprSet dRow (srcn + i) sign

/-! ## Shifts, rotates, SHLD and SHRD -/

/-- `u = tag_combine(u, ...)` over `n` bytes. -/
def unite (n : ℕ) (src : ℕ → Engine Tag) (u : Tag) : Engine Tag :=
  fold n (fun i u => do combine u (← src i)) u

def shiftR (dRow dStart n : ℕ) : Engine PUnit :=
  if n = 0 then pure ⟨⟩
  else do
    let u ← gprGet dRow dStart
    let u ← unite (n - 1) (fun i => gprGet dRow (dStart + (1 + i))) u
    loop n fun i => gprSet dRow (dStart + i) u

def shiftM (addr : ADDRINT) (n : ℕ) : Engine PUnit :=
  if n = 0 then pure ⟨⟩
  else do
    let u ← getb addr
    let u ← unite (n - 1) (fun i => getb (byteAt addr (1 + i))) u
    loop n fun i => setb (byteAt addr i) u

def shldR2r (dRow dStart sRow sStart n : ℕ) : Engine PUnit :=
  if n = 0 then pure ⟨⟩
  else do
    let u ← gprGet dRow dStart
    let u ← unite (n - 1) (fun i => gprGet dRow (dStart + (1 + i))) u
    let u ← unite n (fun i => gprGet sRow (sStart + i)) u
    loop n fun i => gprSet dRow (dStart + i) u

/-! ## BSWAP and MOVBE -/

def bswapReg (dRow dStart n : ℕ) : Engine PUnit :=
  if n < 2 then pure ⟨⟩
  else
    loop (n / 2) fun i => do
      let tmp ← gprGet dRow (dStart + i)
      let t ← gprGet dRow (dStart + n - 1 - i)
      gprSet dRow (dStart + i) t
      gprSet dRow (dStart + n - 1 - i) tmp

def movbeM2r (dRow dStart : ℕ) (addr : ADDRINT) (n : ℕ) : Engine PUnit :=
  if n = 0 then pure ⟨⟩
  else
    loop n fun i => do
      let t ← getb (byteAt addr n - 1 - BitVec.ofNat 64 i)
      gprSet dRow (dStart + i) t

def movbeR2m (addr : ADDRINT) (sRow sStart n : ℕ) : Engine PUnit :=
  if n = 0 then pure ⟨⟩
  else
    loop n fun i => do
      let t ← gprGet sRow (sStart + n - 1 - i)
      setb (byteAt addr i) t

/-! ## CMPXCHG and XADD -/

def cmpxchgMem (addr : ADDRINT) (srcRow srcStart accumRow accumStart n : ℕ) : Engine PUnit :=
  loop n fun i => do
    let m ← getb (byteAt addr i)
    let s ← gprGet srcRow (srcStart + i)
    let a ← gprGet accumRow (accumStart + i)
    let u ← combine m s
    let u ← combine u a
    setb (byteAt addr i) u
    gprSet accumRow (accumStart + i) u

def cmpxchgReg (dRow dStart srcRow srcStart accumRow accumStart n : ℕ) : Engine PUnit :=
  loop n fun i => do
    let d ← gprGet dRow (dStart + i)
    let s ← gprGet srcRow (srcStart + i)
    let a ← gprGet accumRow (accumStart + i)
    let u ← combine d s
    let u ← combine u a
    gprSet dRow (dStart + i) u
    gprSet accumRow (accumStart + i) u

def xaddR2r (dRow dStart sRow sStart n : ℕ) : Engine PUnit :=
  loop n fun i => do
    let d ← gprGet dRow (dStart + i)
    let s ← gprGet sRow (sStart + i)
    let u ← combine d s
    gprSet dRow (dStart + i) u
    gprSet sRow (sStart + i) u

def xaddM2r (addr : ADDRINT) (sRow sStart n : ℕ) : Engine PUnit :=
  loop n fun i => do
    let m ← getb (byteAt addr i)
    let s ← gprGet sRow (sStart + i)
    let u ← combine m s
    setb (byteAt addr i) u
    gprSet sRow (sStart + i) u

/-! ## What the handlers do -/

section Flows

variable {D : Set Cell} {L : Set ℕ} {held : Set Tag} {addr : ADDRINT} {n : ℕ}

theorem byteAt_sub {i : ℕ} (hi : i < n) :
    byteAt addr n - 1 - BitVec.ofNat 64 i = byteAt addr (n - 1 - i) := by
  obtain ⟨k, rfl⟩ : ∃ k, n = k + 1 + i := ⟨n - 1 - i, by omega⟩
  have last : k + 1 + i - 1 - i = k := by omega
  have whole : BitVec.ofNat 64 (k + 1 + i) = BitVec.ofNat 64 k + 1 + BitVec.ofNat 64 i := by
    simp [BitVec.ofNat_add]
  simp only [byteAt, last, whole]
  bv_omega

theorem byteAt_zero (addr : ADDRINT) : byteAt addr 0 = addr := by simp [byteAt]

theorem inRange_pred_iff : (∀ i < n, byteAt addr (n - 1 - i) ≤ lastAddress) ↔ InRange addr n := by
  constructor
  · intro h i hi
    have := h (n - 1 - i) (by omega)
    rwa [show n - 1 - (n - 1 - i) = i by omega] at this
  · exact fun h i hi => h _ (by omega)

/-- A range without bytes is in range. -/
theorem inRange_iff_of_ne_zero : InRange addr n ↔ (n ≠ 0 → InRange addr n) := by
  refine ⟨fun h _ => h, fun h i hi => h (by omega) i hi⟩

/-- The first byte and the ones after it. -/
theorem inRange_succ_iff (hn : n ≠ 0) :
    InRange addr n ↔ addr ≤ lastAddress ∧ ∀ i < n - 1, byteAt addr (1 + i) ≤ lastAddress := by
  constructor
  · intro h
    exact ⟨byteAt_zero addr ▸ h 0 (by omega), fun i hi => h _ (by omega)⟩
  · rintro ⟨first, rest⟩ i hi
    obtain rfl | hi' := Nat.eq_zero_or_pos i
    · rwa [byteAt_zero]
    · have := rest (i - 1) (by omega)
      rwa [show 1 + (i - 1) = i by omega] at this

theorem gprClr_flow {row byte : ℕ} (h : InFile row byte) (hD : Cell.reg row byte ∈ D) :
    Flow D L held True (fun _ => ∅) (gprSet row byte clearedVal) :=
  clearedVal_flow (gprSet_flow h (by simp) hD)

/-- One byte read and one written. -/
theorem copy_flow {G : Prop} {src : Engine Tag} {dst : Tag → Engine PUnit}
    (hs : Flow D L held G (fun t => {t}) src)
    (hd : ∀ t, Flow D L (held ∪ {t}) True (fun _ => ∅) (dst t)) :
    Flow D L held G (fun _ => ∅) (src >>= dst) :=
  (hs.bind hd).guard_iff (by simp)

theorem unite_flow {G : ℕ → Prop} {src : ℕ → Engine Tag} {u : Tag} (hu : u ∈ held)
    (hs : ∀ i < n, ∀ v, Flow D L (held ∪ {v}) (G i) (fun t => {t}) (src i)) :
    Flow D L held (∀ i < n, G i) (fun t => {t}) (unite n src u) := by
  refine World.Triple.fold (by simpa using hu) fun i hi v => ?_
  exact ((hs i hi v).bind fun t => combine_flow (by simp) (by simp)).guard_iff (by simp)

variable {row start dstRow dstStart srcRow srcStart : ℕ}

theorem r2rXfer_flow (hd : GprSpan dstRow dstStart n) (hs : GprSpan srcRow srcStart n) :
    Flow (regSpan dstRow dstStart n) L held True (fun _ => ∅)
      (r2rXfer dstRow dstStart srcRow srcStart n) := by
  refine World.Triple.loop_of_true fun i hi => ?_
  exact copy_flow (gprGet_flow (hs.inFile hi))
    fun t => gprSet_flow (hd.inFile hi) (by simp) (mem_regSpan_self hi)

theorem rClr_flow (h : GprSpan row start n) :
    Flow (regSpan row start n) L held True (fun _ => ∅) (rClr row start n) :=
  World.Triple.loop_of_true fun _ hi => gprClr_flow (h.inFile hi) (mem_regSpan_self hi)

theorem movM2r_flow (h : GprSpan row start n) :
    Flow (regSpan row start n) L held (InRange addr n) (fun _ => ∅) (movM2r row start addr n) :=
  World.Triple.loop fun _ hi => copy_flow (getb_flow _)
    fun t => gprSet_flow (h.inFile hi) (by simp) (mem_regSpan_self hi)

theorem movR2m_flow (h : GprSpan row start n) :
    Flow (memSpan addr n) L held True (fun _ => ∅) (movR2m addr row start n) := by
  refine World.Triple.loop_of_true fun i hi => ?_
  exact copy_flow (gprGet_flow (h.inFile hi)) fun t => setb_flow (by simp) (mem_memSpan_self hi)

theorem movClrMem_flow (hn : n < 2 ^ 32) :
    Flow (memSpan addr n) L held True (fun _ => ∅) (movClrMem addr n) := by
  refine clrn_flow ?_
  rw [BitVec.toNat_ofNat, Nat.mod_eq_of_lt hn]

theorem m2mXfer_flow {dstAddr srcAddr : ADDRINT} :
    Flow (memSpan dstAddr n) L held (InRange srcAddr n) (fun _ => ∅)
      (m2mXfer dstAddr srcAddr n) :=
  World.Triple.loop fun _ hi => copy_flow (getb_flow _)
    fun t => setb_flow (by simp) (mem_memSpan_self hi)

/-- RAX and RDX, the implicit destinations of the ternary handlers. -/
def ternarySpan (n : ℕ) : Set Cell :=
  if n = 1 then regSpan DFT_REG_RAX 0 2 else regSpan DFT_REG_RDX 0 n ∪ regSpan DFT_REG_RAX 0 n

theorem srcTag_flow {k i : ℕ} {src : Vector Tag k} (hi : i < k) (hsrc : ∀ t ∈ src, t ∈ held) :
    Flow D L held True (fun t => {t}) (srcTag src i) := by
  rw [srcTag, dif_pos hi]
  exact World.Triple.pure (by simpa using hsrc _ (Vector.getElem_mem hi))

theorem gprUnite_flow {byte : ℕ} {t : Tag} (h : InFile row byte) (ht : t ∈ held)
    (hD : Cell.reg row byte ∈ D) : Flow D L held True (fun _ => ∅) (gprUnite row byte t) :=
  ((gprGet_flow h).bind fun d => (combine_flow (by simp) (by simp [ht])).bind fun u =>
    gprSet_flow h (by simp) hD).guard_iff (by simp)

theorem ternaryCombine_flow {k : ℕ} {src : Vector Tag k} (hk : k = min n 8) (hn : n ≤ 8)
    (hsrc : ∀ t ∈ src, t ∈ held) :
    Flow (ternarySpan n) L held True (fun _ => ∅) (ternaryCombine src n) := by
  have file : ∀ {i row}, i < 8 → row < 19 → InFile row i := fun hi hr =>
    ⟨by rw [GRP_NUM]; omega, by rw [TAGS_PER_GPR]; omega⟩
  unfold ternaryCombine ternarySpan
  split_ifs with h1
  · subst h1
    have al : Cell.reg DFT_REG_RAX 0 ∈ regSpan DFT_REG_RAX 0 2 := ⟨0, by omega, rfl⟩
    have ah : Cell.reg DFT_REG_RAX 1 ∈ regSpan DFT_REG_RAX 0 2 := ⟨1, by omega, rfl⟩
    refine World.Triple.guard_iff ((srcTag_flow (by omega) hsrc).bind fun t =>
      (gprUnite_flow (file (by omega) (by decide)) (by simp) al).bind fun _ =>
      gprUnite_flow (file (by omega) (by decide)) (by simp) ah) (by simp)
  · refine World.Triple.loop_of_true fun i hi => ?_
    have rdx : Cell.reg DFT_REG_RDX i ∈ regSpan DFT_REG_RDX 0 n ∪ regSpan DFT_REG_RAX 0 n :=
      .inl (mem_regSpan.mpr (by omega))
    have rax : Cell.reg DFT_REG_RAX i ∈ regSpan DFT_REG_RDX 0 n ∪ regSpan DFT_REG_RAX 0 n :=
      .inr (mem_regSpan.mpr (by omega))
    refine World.Triple.guard_iff ((srcTag_flow (by omega) hsrc).bind fun t =>
      (gprUnite_flow (file (by omega) (by decide)) (by simp) rdx).bind fun _ =>
      gprUnite_flow (file (by omega) (by decide)) (by simp) rax) (by simp)

theorem ternaryR2r_flow (h : GprSpan row start n) (hn : n ≤ 8) :
    Flow (ternarySpan n) L held True (fun _ => ∅) (ternaryR2r row start n) := by
  have src : Flow (ternarySpan n) L held _ _ _ :=
    World.Triple.gather fun i (hi : i < min n 8) => gprGet_flow (h.inFile (by omega : i < n))
  refine (src.bind fun v => ternaryCombine_flow rfl hn fun t ht => ?_).guard_iff (by simp)
  exact .inr ⟨t, ht, rfl⟩

theorem ternaryM2r_flow (hn : n ≤ 8) :
    Flow (ternarySpan n) L held (InRange addr n) (fun _ => ∅) (ternaryM2r addr n) := by
  have src : Flow (ternarySpan n) L held _ _ _ :=
    World.Triple.gather fun i (_ : i < min n 8) => getb_flow (byteAt addr i)
  refine (src.bind fun v => ternaryCombine_flow rfl hn fun t ht => ?_).guard_iff ?_
  · exact .inr ⟨t, ht, rfl⟩
  · simp [InRange, Nat.min_eq_left hn]

theorem xchgR2r_flow {aRow aStart bRow bStart : ℕ} (ha : GprSpan aRow aStart n)
    (hb : GprSpan bRow bStart n) :
    Flow (regSpan aRow aStart n ∪ regSpan bRow bStart n) L held True (fun _ => ∅)
      (xchgR2r aRow aStart bRow bStart n) := by
  refine World.Triple.loop_of_true fun i hi => ?_
  refine ((gprGet_flow (ha.inFile hi)).bind fun t => (gprGet_flow (hb.inFile hi)).bind fun b =>
    (gprSet_flow (ha.inFile hi) (by simp) (.inl (mem_regSpan_self hi))).bind fun _ =>
    gprSet_flow (hb.inFile hi) (by simp) (.inr (mem_regSpan_self hi))).guard_iff (by simp)

theorem xchgM2r_flow (h : GprSpan row start n) :
    Flow (regSpan row start n ∪ memSpan addr n) L held (InRange addr n) (fun _ => ∅)
      (xchgM2r addr row start n) := by
  refine World.Triple.loop fun i hi => ?_
  exact ((gprGet_flow (h.inFile hi)).bind fun r => (getb_flow _).bind fun m =>
    (gprSet_flow (h.inFile hi) (by simp) (.inl (mem_regSpan_self hi))).bind fun _ =>
    setb_flow (by simp) (.inr (mem_memSpan_self hi))).guard_iff (by simp)

theorem cmovR2r_flow {xflags : UINT64} {pred : Pred} (hd : GprSpan dstRow dstStart n)
    (hs : GprSpan srcRow srcStart n) :
    Flow (regSpan dstRow dstStart n) L held True (fun _ => ∅)
      (cmovR2r xflags pred dstRow dstStart srcRow srcStart n) := by
  exact (World.Triple.onlyIf fun _ => r2rXfer_flow hd hs).guard_iff (by simp)

theorem cmovM2r_flow {xflags : UINT64} {pred : Pred} (h : GprSpan row start n) :
    Flow (regSpan row start n) L held (condTriggered pred xflags = true → InRange addr n)
      (fun _ => ∅) (cmovM2r xflags pred row start addr n) :=
  World.Triple.onlyIf fun _ => movM2r_flow h

theorem binaryR2r_flow (hd : GprSpan dstRow dstStart n) (hs : GprSpan srcRow srcStart n) :
    Flow (regSpan dstRow dstStart n) L held True (fun _ => ∅)
      (binaryR2r dstRow dstStart srcRow srcStart n) := by
  refine World.Triple.loop_of_true fun i hi => ?_
  exact copy_flow (gprGet_flow (hs.inFile hi))
    fun t => gprUnite_flow (hd.inFile hi) (by simp) (mem_regSpan_self hi)

theorem binaryM2r_flow (h : GprSpan row start n) :
    Flow (regSpan row start n) L held (InRange addr n) (fun _ => ∅) (binaryM2r row start addr n) :=
  World.Triple.loop fun _ hi => copy_flow (getb_flow _)
    fun _ => gprUnite_flow (h.inFile hi) (by simp) (mem_regSpan_self hi)

theorem binaryR2m_flow (h : GprSpan row start n) :
    Flow (memSpan addr n) L held (InRange addr n) (fun _ => ∅) (binaryR2m addr row start n) := by
  refine World.Triple.loop fun i hi => ?_
  exact ((getb_flow _).bind fun cur => (gprGet_flow (h.inFile hi)).bind fun s =>
    (combine_flow (by simp) (by simp)).bind fun u =>
    setb_flow (by simp) (mem_memSpan_self hi)).guard_iff (by simp)

/-- The bytes that an extension writes, counted from the start of the row. -/
theorem extend_mem {srcn dstn i : ℕ} (hi : i < max srcn dstn) :
    Cell.reg row i ∈ regSpan row 0 (max srcn dstn) := mem_regSpan.mpr (by omega)

theorem movzxR2r_flow {srcn dstn : ℕ} (hd : GprSpan dstRow 0 (max srcn dstn))
    (hs : GprSpan srcRow srcStart srcn) :
    Flow (regSpan dstRow 0 (max srcn dstn)) L held True (fun _ => ∅)
      (movzxR2r dstRow srcRow srcStart srcn dstn) := by
  have file : ∀ {i}, i < max srcn dstn → InFile dstRow i := fun hi => by
    simpa using hd.inFile hi
  refine World.Triple.guard_iff (World.Triple.bind (World.Triple.loop_of_true fun i hi =>
    copy_flow (gprGet_flow (hs.inFile hi)) fun t =>
      gprSet_flow (file (by omega)) (by simp) (extend_mem (by omega))) fun _ =>
    World.Triple.loop_of_true fun i hi =>
      gprClr_flow (file (by omega)) (extend_mem (by omega))) (by simp)

theorem movzxM2r_flow {srcn dstn : ℕ} (hd : GprSpan dstRow 0 (max srcn dstn)) :
    Flow (regSpan dstRow 0 (max srcn dstn)) L held (InRange addr srcn) (fun _ => ∅)
      (movzxM2r dstRow addr srcn dstn) := by
  have file : ∀ {i}, i < max srcn dstn → InFile dstRow i := fun hi => by
    simpa using hd.inFile hi
  refine World.Triple.guard_iff (World.Triple.bind (World.Triple.loop fun i hi =>
    copy_flow (getb_flow _) fun t =>
      gprSet_flow (file (by omega)) (by simp) (extend_mem (by omega))) fun _ =>
    World.Triple.loop_of_true fun i hi =>
      gprClr_flow (file (by omega)) (extend_mem (by omega))) (by simp [InRange])

theorem movsxR2r_flow {srcn dstn : ℕ} (hd : GprSpan dstRow 0 (max srcn dstn))
    (hs : GprSpan srcRow srcStart srcn) :
    Flow (regSpan dstRow 0 (max srcn dstn)) L held True (fun _ => ∅)
      (movsxR2r dstRow srcRow srcStart srcn dstn) := by
  have file : ∀ {i}, i < max srcn dstn → InFile dstRow i := fun hi => by
    simpa using hd.inFile hi
  refine World.Triple.guard_iff (World.Triple.skipIf fun hne =>
    World.Triple.bind (World.Triple.loop_of_true fun i hi =>
      copy_flow (gprGet_flow (hs.inFile hi)) fun t =>
        gprSet_flow (file (by omega)) (by simp) (extend_mem (by omega))) fun _ =>
    World.Triple.bind (gprGet_flow ?_) fun sign =>
      World.Triple.loop_of_true fun i hi =>
        gprSet_flow (file (by omega)) (by simp) (extend_mem (by omega))) (by simp)
  have := hs.inFile (by omega : srcn - 1 < srcn)
  rwa [Nat.add_sub_assoc (by omega)]

theorem movsxM2r_flow {srcn dstn : ℕ} (hd : GprSpan dstRow 0 (max srcn dstn)) :
    Flow (regSpan dstRow 0 (max srcn dstn)) L held (InRange addr srcn) (fun _ => ∅)
      (movsxM2r dstRow addr srcn dstn) := by
  have file : ∀ {i}, i < max srcn dstn → InFile dstRow i := fun hi => by
    simpa using hd.inFile hi
  refine World.Triple.guard_iff (World.Triple.skipIf fun hne =>
    World.Triple.bind (World.Triple.loop fun i hi =>
      copy_flow (getb_flow _) fun t =>
        gprSet_flow (file (by omega)) (by simp) (extend_mem (by omega))) fun _ =>
    World.Triple.bind (getb_flow _) fun sign =>
      World.Triple.loop_of_true fun i hi =>
        gprSet_flow (file (by omega)) (by simp) (extend_mem (by omega))) ?_
  rw [inRange_iff_of_ne_zero]
  refine forall_congr' fun h0 => ?_
  -- the byte the sign is read from again is the last of the source
  have last : byteAt addr srcn - 1 = byteAt addr (srcn - 1) := by
    simpa using byteAt_sub (by omega : 0 < srcn)
  rw [last, and_true]
  exact ⟨fun h => ⟨h, h _ (by omega)⟩, fun h => h.1⟩

theorem shiftR_flow (h : GprSpan row start n) :
    Flow (regSpan row start n) L held True (fun _ => ∅) (shiftR row start n) := by
  refine World.Triple.guard_iff (World.Triple.skipIf fun hne =>
    World.Triple.bind (gprGet_flow (h.inFile (by omega : 0 < n))) fun u =>
    World.Triple.bind (unite_flow (by simp) fun i hi _ => gprGet_flow (h.inFile (by omega)))
      fun v => World.Triple.loop_of_true fun i hi =>
        gprSet_flow (h.inFile hi) (by simp) (mem_regSpan_self hi)) (by simp)

theorem shiftM_flow :
    Flow (memSpan addr n) L held (InRange addr n) (fun _ => ∅) (shiftM addr n) := by
  refine World.Triple.guard_iff (World.Triple.skipIf fun hne =>
    World.Triple.bind (getb_flow addr) fun u =>
    World.Triple.bind (unite_flow (by simp) fun i hi _ => getb_flow _) fun v =>
      World.Triple.loop_of_true fun i hi => setb_flow (by simp) (mem_memSpan_self hi)) ?_
  rw [inRange_iff_of_ne_zero]
  exact forall_congr' fun h0 => by rw [inRange_succ_iff h0, and_true]

theorem shldR2r_flow (hd : GprSpan dstRow dstStart n) (hs : GprSpan srcRow srcStart n) :
    Flow (regSpan dstRow dstStart n) L held True (fun _ => ∅)
      (shldR2r dstRow dstStart srcRow srcStart n) := by
  refine World.Triple.guard_iff (World.Triple.skipIf fun hne =>
    World.Triple.bind (gprGet_flow (hd.inFile (by omega : 0 < n))) fun u =>
    World.Triple.bind (unite_flow (by simp) fun i hi _ => gprGet_flow (hd.inFile (by omega)))
      fun v => World.Triple.bind (unite_flow (by simp) fun i hi _ => gprGet_flow (hs.inFile hi))
        fun w => World.Triple.loop_of_true fun i hi =>
          gprSet_flow (hd.inFile hi) (by simp) (mem_regSpan_self hi)) (by simp)

theorem bswapReg_flow (h : GprSpan row start n) :
    Flow (regSpan row start n) L held True (fun _ => ∅) (bswapReg row start n) := by
  refine World.Triple.guard_iff (World.Triple.skipIf fun hn =>
    World.Triple.loop_of_true fun i hi => ?_) (by simp)
  have mirror : start + n - 1 - i = start + (n - 1 - i) := by omega
  have lo : i < n := by omega
  have hi' : n - 1 - i < n := by omega
  rw [mirror]
  exact ((gprGet_flow (h.inFile lo)).bind fun tmp => (gprGet_flow (h.inFile hi')).bind fun t =>
    (gprSet_flow (h.inFile lo) (by simp) (mem_regSpan_self lo)).bind fun _ =>
    gprSet_flow (h.inFile hi') (by simp) (mem_regSpan_self hi')).guard_iff (by simp)

theorem movbeM2r_flow (h : GprSpan row start n) :
    Flow (regSpan row start n) L held (InRange addr n) (fun _ => ∅)
      (movbeM2r row start addr n) := by
  have load : Flow (regSpan row start n) L held (InRange addr n) (fun _ => ∅)
      (loop n fun i => do
        let t ← getb (byteAt addr n - 1 - BitVec.ofNat 64 i)
        gprSet row (start + i) t) := by
    refine (World.Triple.loop fun i hi => ?_).guard_iff inRange_pred_iff.symm
    rw [byteAt_sub hi]
    exact copy_flow (getb_flow _) fun t => gprSet_flow (h.inFile hi) (by simp) (mem_regSpan_self hi)
  exact (World.Triple.skipIf fun _ => load).guard_iff inRange_iff_of_ne_zero

theorem movbeR2m_flow (h : GprSpan row start n) :
    Flow (memSpan addr n) L held True (fun _ => ∅) (movbeR2m addr row start n) := by
  refine World.Triple.guard_iff (World.Triple.skipIf fun hne =>
    World.Triple.loop_of_true fun i hi => ?_) (by simp)
  rw [show start + n - 1 - i = start + (n - 1 - i) by omega]
  exact copy_flow (gprGet_flow (h.inFile (by omega)))
    fun t => setb_flow (by simp) (mem_memSpan_self hi)

variable {accumRow accumStart : ℕ}

theorem cmpxchgMem_flow (hs : GprSpan srcRow srcStart n) (ha : GprSpan accumRow accumStart n) :
    Flow (memSpan addr n ∪ regSpan accumRow accumStart n) L held (InRange addr n) (fun _ => ∅)
      (cmpxchgMem addr srcRow srcStart accumRow accumStart n) := by
  refine World.Triple.loop fun i hi => ?_
  exact ((getb_flow _).bind fun m => (gprGet_flow (hs.inFile hi)).bind fun s =>
    (gprGet_flow (ha.inFile hi)).bind fun a => (combine_flow (by simp) (by simp)).bind fun u =>
    (combine_flow (by simp) (by simp)).bind fun v =>
    (setb_flow (by simp) (.inl (mem_memSpan_self hi))).bind fun _ =>
    gprSet_flow (ha.inFile hi) (by simp) (.inr (mem_regSpan_self hi))).guard_iff (by simp)

theorem cmpxchgReg_flow (hd : GprSpan dstRow dstStart n) (hs : GprSpan srcRow srcStart n)
    (ha : GprSpan accumRow accumStart n) :
    Flow (regSpan dstRow dstStart n ∪ regSpan accumRow accumStart n) L held True (fun _ => ∅)
      (cmpxchgReg dstRow dstStart srcRow srcStart accumRow accumStart n) := by
  refine World.Triple.loop_of_true fun i hi => ?_
  exact ((gprGet_flow (hd.inFile hi)).bind fun d => (gprGet_flow (hs.inFile hi)).bind fun s =>
    (gprGet_flow (ha.inFile hi)).bind fun a => (combine_flow (by simp) (by simp)).bind fun u =>
    (combine_flow (by simp) (by simp)).bind fun v =>
    (gprSet_flow (hd.inFile hi) (by simp) (.inl (mem_regSpan_self hi))).bind fun _ =>
    gprSet_flow (ha.inFile hi) (by simp) (.inr (mem_regSpan_self hi))).guard_iff (by simp)

theorem xaddR2r_flow (hd : GprSpan dstRow dstStart n) (hs : GprSpan srcRow srcStart n) :
    Flow (regSpan dstRow dstStart n ∪ regSpan srcRow srcStart n) L held True (fun _ => ∅)
      (xaddR2r dstRow dstStart srcRow srcStart n) := by
  refine World.Triple.loop_of_true fun i hi => ?_
  exact ((gprGet_flow (hd.inFile hi)).bind fun d => (gprGet_flow (hs.inFile hi)).bind fun s =>
    (combine_flow (by simp) (by simp)).bind fun u =>
    (gprSet_flow (hd.inFile hi) (by simp) (.inl (mem_regSpan_self hi))).bind fun _ =>
    gprSet_flow (hs.inFile hi) (by simp) (.inr (mem_regSpan_self hi))).guard_iff (by simp)

theorem xaddM2r_flow (h : GprSpan row start n) :
    Flow (memSpan addr n ∪ regSpan row start n) L held (InRange addr n) (fun _ => ∅)
      (xaddM2r addr row start n) := by
  refine World.Triple.loop fun i hi => ?_
  exact ((getb_flow _).bind fun m => (gprGet_flow (h.inFile hi)).bind fun s =>
    (combine_flow (by simp) (by simp)).bind fun u =>
    (setb_flow (by simp) (.inl (mem_memSpan_self hi))).bind fun _ =>
    gprSet_flow (h.inFile hi) (by simp) (.inr (mem_regSpan_self hi))).guard_iff (by simp)

end Flows

end LibdftDr
