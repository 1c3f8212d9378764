import LibdftDr.Core.Agreement
import LibdftDr.Core.Compare

/-!
# Function summaries

`sdft_hook` replaces the propagation inside a summarised function by one of six shape handlers
that runs when the function is entered. The handlers take pointers and lengths from the
argument registers; `resolveLen` scans application memory for the string lengths.

`dispatch_flow` says which cells a summary may write and which addresses it looks up;
`dispatch_keeps` is the first half for any property of states.
-/
namespace LibdftDr
open Library Library.Action

inductive Shape where
  | invalid | source | sourceRetPtr | propPtr2ptr | propPtr2val | propScalar | clobberOnly
  deriving DecidableEq

inductive RefKind where
  | none | arg | literal | ret | strlen | wcslen
  deriving DecidableEq

/-- `value` is an argument index or a constant. -/
structure Ref where
  kind : RefKind
  value : ℤ

structure Summary where
  shape : Shape
  dst : Ref
  src : List ℤ
  len : Ref
  args : List ℤ

abbrev ArgVals := Fin 6 → ADDRINT

def argToReg : ℤ → Option ℕ
  | 0 => some DFT_REG_RDI
  | 1 => some DFT_REG_RSI
  | 2 => some DFT_REG_RDX
  | 3 => some DFT_REG_RCX
  | 4 => some DFT_REG_R8
  | 5 => some DFT_REG_R9
  | _ => none

def MAX_PROP_BYTES : ℕ := 256 * 1024

/-- How many units pass the test from the first on, at most `fuel`. -/
def scanLen (ok : ℕ → Bool) (fuel : ℕ) (n : ℕ) : ℕ :=
  match fuel with
  | 0 => n
  | fuel + 1 => if ok n then scanLen ok fuel (n + 1) else n

/-- Stops at the first byte that is unreadable or zero. -/
def safeStrlen (mem : AppMem) (p : ADDRINT) : UINT64 :=
  if p = 0 then 0
  else BitVec.ofNat 64 <| scanLen (fun n =>
    match mem (byteAt p n) with
    | some c => c != 0
    | none => false) MAX_PROP_BYTES 0

/-- `sizeof(wchar_t)` is 4. -/
def safeWcslenBytes (mem : AppMem) (p : ADDRINT) : UINT64 :=
  if p = 0 then 0
  else BitVec.ofNat 64 <| 4 * scanLen (fun n =>
    match (List.range 4).mapM fun i => mem (byteAt p (4 * n + i)) with
    | some w => w.any (· != 0)
    | none => false) (MAX_PROP_BYTES / 4) 0

/-- The argument with this index, if there is one. -/
def argVal (av : ArgVals) (i : ℤ) : Option ADDRINT :=
  if h : 0 ≤ i ∧ i ≤ 5 then some (av ⟨i.toNat, by omega⟩) else none

def resolveLen (mem : AppMem) (lenref : Ref) (av : ArgVals) (srcPtr : ADDRINT) : UINT64 :=
  match lenref.kind with
  | .arg => (argVal av lenref.value).getD 0
  | .literal => BitVec.ofInt 64 lenref.value
  | .strlen => safeStrlen mem srcPtr
  | .wcslen => safeWcslenBytes mem srcPtr
  | .ret | .none => 0

def resolvePtr (r : Ref) (av : ArgVals) : ADDRINT :=
  if r.kind = .arg then (argVal av r.value).getD 0 else 0

/-- The length after `if (n > MAX_PROP_BYTES) n = MAX_PROP_BYTES`. -/
def propLen (mem : AppMem) (sum : Summary) (av : ArgVals) (src : ADDRINT) : ℕ :=
  min (resolveLen mem sum.len av src).toNat MAX_PROP_BYTES

def callerSaved : List ℕ :=
  [DFT_REG_RAX, DFT_REG_RCX, DFT_REG_RDX, DFT_REG_RSI, DFT_REG_RDI,
    DFT_REG_R8, DFT_REG_R9, DFT_REG_R10, DFT_REG_R11]

def clobberCallerSaved : Engine PUnit :=
  each callerSaved (fun row _ => loop TAGS_PER_GPR fun b => gprSet row b clearedVal) ⟨⟩

def raxSetAll (t : Tag) : Engine PUnit := loop 8 fun b => gprSet DFT_REG_RAX b t

/-! ## The shape handlers -/

def handleClobber : Engine PUnit := clobberCallerSaved

/-- `av.a[sum->src[0]]`, without a check of the index. -/
def argIndexed (av : ArgVals) (i : ℤ) : Engine ADDRINT :=
  match argVal av i with
  | some a => pure a
  | none => fail .outOfBounds

/-- A return value as destination is not followed. -/
def ptr2ptrDst (sum : Summary) (av : ArgVals) : ADDRINT :=
  if sum.dst.kind = .ret then 0 else resolvePtr sum.dst av

def handlePropPtr2ptr (mem : AppMem) (av : ArgVals) (sum : Summary) : Engine PUnit :=
  match sum.src with
  | [] => clobberCallerSaved
  | i :: _ => do
    let src ← argIndexed av i
    let dst := ptr2ptrDst sum av
    let n := propLen mem sum av src
    onlyIf (dst ≠ 0 ∧ src ≠ 0) do
      loop n fun i => do
        let t ← getb (byteAt src i)
        setb (byteAt dst i) t
      onlyIf (0 < n) do
        let t ← getb dst
        raxSetAll t
    clobberCallerSaved
    onlyIf (dst ≠ 0 ∧ 0 < n) do
      let t ← getb dst
      raxSetAll t

def handlePropPtr2val (mem : AppMem) (av : ArgVals) (sum : Summary) : Engine PUnit := do
  let accum ← each sum.src (fun idx accum =>
    match argVal av idx with
    | none => pure accum
    | some p =>
      if p = 0 then pure accum
      else unite (propLen mem sum av p) (fun i => getb (byteAt p i)) accum) clearedVal
  clobberCallerSaved
  raxSetAll accum

def handlePropScalar (sum : Summary) : Engine PUnit := do
  let accum ← each sum.args (fun idx accum =>
    match argToReg idx with
    | none => pure accum
    | some reg => unite 8 (fun b => gprGet reg b) accum) clearedVal
  clobberCallerSaved
  raxSetAll accum

def dispatch (mem : AppMem) (av : ArgVals) (sum : Summary) : Engine PUnit :=
  match sum.shape with
  | .source | .sourceRetPtr | .clobberOnly => handleClobber
  | .propPtr2ptr => handlePropPtr2ptr mem av sum
  | .propPtr2val => handlePropPtr2val mem av sum
  | .propScalar => handlePropScalar sum
  | .invalid => pure ⟨⟩

/-! ## What a summary reads and writes -/

/-- The only index that is used unchecked is that of a register argument. -/
def Summary.FirstOk (sum : Summary) : Prop :=
  sum.shape = .propPtr2ptr → ∀ i ∈ sum.src.head?, 0 ≤ i ∧ i ≤ 5

def callerSavedSpan : Set Cell := {c | ∃ row ∈ callerSaved, c ∈ regSpan row 0 TAGS_PER_GPR}

/-- The source pointer of the pointer-to-pointer shape. -/
def Summary.ptr2ptrSrc (sum : Summary) (av : ArgVals) : ADDRINT :=
  match sum.src with
  | [] => 0
  | i :: _ => (argVal av i).getD 0

/-- The caller-saved registers, and the destination of a pointer-to-pointer summary. -/
def Summary.writes (mem : AppMem) (av : ArgVals) (sum : Summary) : Set Cell :=
  match sum.shape with
  | .invalid => ∅
  | .propPtr2ptr =>
    callerSavedSpan ∪ memSpan (ptr2ptrDst sum av) (propLen mem sum av (sum.ptr2ptrSrc av))
  | _ => callerSavedSpan

/-- The source of a pointer-to-pointer summary, and the first byte of its destination again;
every buffer of a pointer-to-value summary. -/
def Summary.reads (mem : AppMem) (av : ArgVals) (sum : Summary) : Set ADDRINT :=
  match sum.shape with
  | .propPtr2ptr =>
    let src := sum.ptr2ptrSrc av
    let dst := ptr2ptrDst sum av
    let n := propLen mem sum av src
    {a ∈ addrSpan src n | dst ≠ 0 ∧ src ≠ 0} ∪ {a | a = dst ∧ sum.src ≠ [] ∧ dst ≠ 0 ∧ 0 < n}
  | .propPtr2val =>
    {a | ∃ i ∈ sum.src, ∃ p, argVal av i = some p ∧ p ≠ 0 ∧ a ∈ addrSpan p (propLen mem sum av p)}
  | _ => ∅

theorem argVal_of_mem {av : ArgVals} {i : ℤ} (h : 0 ≤ i ∧ i ≤ 5) : ∃ p, argVal av i = some p :=
  ⟨_, dif_pos h⟩

section Flows

variable {D : Set Cell} {L : Set ℕ} {held : Set Tag} {mem : AppMem} {av : ArgVals} {sum : Summary}

theorem callerSaved_lt {row : ℕ} (h : row ∈ callerSaved) : row < GRP_NUM + 1 := by
  revert row
  decide

theorem argToReg_lt {i : ℤ} {row : ℕ} (h : argToReg i = some row) : row < GRP_NUM + 1 := by
  unfold argToReg at h
  split at h <;> cases h <;> decide

theorem clobber_flow (hD : callerSavedSpan ⊆ D) :
    Flow D L held True (fun _ => ∅) clobberCallerSaved := by
  refine World.Triple.each_of_true fun row hrow => World.Triple.loop_of_true fun b hb => ?_
  refine gprClr_flow ⟨callerSaved_lt hrow, hb⟩ (hD ⟨row, hrow, mem_regSpan.mpr ?_⟩)
  exact ⟨rfl, by omega, by omega⟩

theorem raxSetAll_flow (hD : callerSavedSpan ⊆ D) {t : Tag} (ht : t ∈ held) :
    Flow D L held True (fun _ => ∅) (raxSetAll t) := by
  refine World.Triple.loop_of_true fun b hb => gprSet_flow ?_ ht (hD ?_)
  · exact ⟨by decide, by rw [TAGS_PER_GPR]; omega⟩
  · exact ⟨DFT_REG_RAX, by decide, mem_regSpan.mpr ⟨rfl, by omega, by rw [TAGS_PER_GPR]; omega⟩⟩

/-- What ends the two shapes with a value: RAX gets the union that was gathered. -/
theorem return_flow (hD : callerSavedSpan ⊆ D) {G : Prop} {f : Engine Tag}
    (h : Flow D L held G (fun t => {t}) f) :
    Flow D L held G (fun _ => ∅) (do let t ← f; clobberCallerSaved; raxSetAll t) :=
  (h.bind fun t => (clobber_flow hD).bind fun _ => raxSetAll_flow hD (by simp)).guard_iff (by simp)

theorem handlePropScalar_flow (hD : callerSavedSpan ⊆ D) :
    Flow D L held True (fun _ => ∅) (handlePropScalar sum) := by
  refine return_flow hD (clearedVal_flow ?_)
  refine (World.Triple.each (G := fun _ => True) (by simp) fun idx _ u => ?_).guard_iff (by simp)
  cases h : argToReg idx with
  | none => exact World.Triple.pure (by simp)
  | some reg =>
    refine (unite_flow (by simp) fun b hb v => gprGet_flow ⟨argToReg_lt h, ?_⟩).guard_iff (by simp)
    rw [TAGS_PER_GPR]
    omega

theorem handlePropPtr2val_flow (hD : callerSavedSpan ⊆ D) :
    Flow D L held (∀ i ∈ sum.src, ∀ p, argVal av i = some p → p ≠ 0 →
      InRange p (propLen mem sum av p)) (fun _ => ∅) (handlePropPtr2val mem av sum) := by
  refine return_flow hD (clearedVal_flow (World.Triple.each (by simp) fun idx _ u => ?_))
  cases h : argVal av idx with
  | none => exact (World.Triple.pure (by simp)).guard_iff (by simp)
  | some p =>
    have gather : Flow D L _ (InRange p (propLen mem sum av p)) (fun t => {t})
        (unite (propLen mem sum av p) (fun i => getb (byteAt p i)) u) :=
      unite_flow (by simp : u ∈ held ∪ {clearedVal} ∪ {u}) fun i _ v => getb_flow (byteAt p i)
    refine (World.Triple.ite (fun _ => World.Triple.pure (by simp)) fun _ => gather).guard_iff ?_
    split_ifs with h0
    · simp [h0]
    · exact ⟨fun g => g p rfl h0, fun g q hq _ => Option.some.inj hq ▸ g⟩

/-- RAX gets the tag of the first destination byte, under a condition. -/
theorem raxFrom_flow (hD : callerSavedSpan ⊆ D) {c : Prop} [Decidable c] {dst : ADDRINT} :
    Flow D L held (c → dst ≤ lastAddress) (fun _ => ∅)
      (onlyIf c do let t ← getb dst; raxSetAll t) :=
  World.Triple.onlyIf fun _ => copy_flow (getb_flow dst) fun _ => raxSetAll_flow hD (by simp)

theorem handlePropPtr2ptr_flow (hD : callerSavedSpan ⊆ D)
    (hdst : memSpan (ptr2ptrDst sum av) (propLen mem sum av (sum.ptr2ptrSrc av)) ⊆ D)
    (ok : ∀ i ∈ sum.src.head?, 0 ≤ i ∧ i ≤ 5) :
    Flow D L held
      ((ptr2ptrDst sum av ≠ 0 ∧ sum.ptr2ptrSrc av ≠ 0 →
          InRange (sum.ptr2ptrSrc av) (propLen mem sum av (sum.ptr2ptrSrc av))) ∧
        (sum.src ≠ [] ∧ ptr2ptrDst sum av ≠ 0 ∧ 0 < propLen mem sum av (sum.ptr2ptrSrc av) →
          ptr2ptrDst sum av ≤ lastAddress))
      (fun _ => ∅) (handlePropPtr2ptr mem av sum) := by
  unfold handlePropPtr2ptr
  cases hs : sum.src with
  | nil =>
    refine (clobber_flow hD).guard_iff ?_
    simp [Summary.ptr2ptrSrc, hs]
  | cons i rest =>
    obtain ⟨src, hsrc⟩ : ∃ p, argVal av i = some p := argVal_of_mem (ok i (by simp [hs]))
    have src_eq : sum.ptr2ptrSrc av = src := by simp [Summary.ptr2ptrSrc, hs, hsrc]
    rw [src_eq] at hdst ⊢
    simp only [argIndexed, hsrc, pure_bind]
    have copy : ∀ held : Set Tag, Flow D L held (InRange src (propLen mem sum av src)) (fun _ => ∅)
        (loop (propLen mem sum av src) fun i => do
          let t ← getb (byteAt src i)
          setb (byteAt (ptr2ptrDst sum av) i) t) := fun held =>
      World.Triple.loop fun i hi => copy_flow (getb_flow _)
        fun t => setb_flow (by simp) (hdst (mem_memSpan_self hi))
    refine World.Triple.guard_iff (World.Triple.bind (World.Triple.onlyIf
      fun _ => (copy _).bind fun _ => raxFrom_flow hD) fun _ =>
      (clobber_flow hD).bind fun _ => raxFrom_flow hD) ?_
    tauto

end Flows

/-- A summary writes its footprint only, brings in no label, and returns exactly when every
address it looks up is in range. -/
theorem dispatch_flow {L : Set ℕ} {held : Set Tag} {mem : AppMem} {av : ArgVals} {sum : Summary}
    (ok : sum.FirstOk) :
    Flow (sum.writes mem av) L held (∀ a ∈ sum.reads mem av, a ≤ lastAddress) (fun _ => ∅)
      (dispatch mem av sum) := by
  unfold dispatch Summary.writes Summary.reads
  cases hshape : sum.shape with
  | invalid => exact (skip_flow _).guard_iff (by simp)
  | source | sourceRetPtr | clobberOnly => exact (clobber_flow subset_rfl).guard_iff (by simp)
  | propScalar => exact (handlePropScalar_flow subset_rfl).guard_iff (by simp)
  | propPtr2val =>
    refine (handlePropPtr2val_flow subset_rfl).guard_iff ?_
    constructor
    · exact fun g i hi p hp h0 => inRange_iff.mpr fun a ha => g a ⟨i, hi, p, hp, h0, ha⟩
    · rintro g a ⟨i, hi, p, hp, h0, ha⟩
      exact inRange_iff.mp (g i hi p hp h0) a ha
  | propPtr2ptr =>
    refine (handlePropPtr2ptr_flow Set.subset_union_left Set.subset_union_right
      (ok hshape)).guard_iff ?_
    constructor
    · exact fun g => ⟨fun h => inRange_iff.mpr fun a ha => g a (.inl ⟨ha, h⟩),
        fun h => g _ (.inr ⟨rfl, h⟩)⟩
    · rintro ⟨g, g'⟩ a (⟨ha, h⟩ | ⟨rfl, h⟩)
      · exact inRange_iff.mp (g h) a ha
      · exact g' h

section Keeps

variable {D C : Set Cell} {P : Shadow → Prop} {mem : AppMem} {av : ArgVals} {sum : Summary}

theorem clobber_keeps (h : Shadow.Ignores D C P) (clears : callerSavedSpan ⊆ D ∪ C) :
    clobberCallerSaved.Keeps P := by
  refine Keeps.each (fun row hrow _ => Keeps.loop fun b hb => gprSet_keeps h ?_) _
  have span : Cell.reg row b ∈ callerSavedSpan :=
    ⟨row, hrow, mem_regSpan.mpr ⟨rfl, by omega, by omega⟩⟩
  exact (clears span).imp_right fun hC => ⟨hC, rfl⟩

theorem raxSetAll_keeps (h : Shadow.Ignores D C P) (rax : regSpan DFT_REG_RAX 0 8 ⊆ D) (t : Tag) :
    (raxSetAll t).Keeps P :=
  Keeps.loop fun b hb => gprSet_keeps h (.inl (rax (mem_regSpan.mpr ⟨rfl, by omega, by omega⟩)))

theorem handlePropPtr2ptr_keeps (h : Shadow.Ignores D C P) (clears : callerSavedSpan ⊆ D ∪ C)
    (rax : regSpan DFT_REG_RAX 0 8 ⊆ D)
    (copy : memSpan (ptr2ptrDst sum av) (propLen mem sum av (sum.ptr2ptrSrc av)) ⊆ D) :
    (handlePropPtr2ptr mem av sum).Keeps P := by
  have raxFrom : ∀ {c : Prop} [Decidable c] {dst : ADDRINT},
      (onlyIf c do let t ← getb dst; raxSetAll t : Engine PUnit).Keeps P :=
    fun {c} _ {dst} => Keeps.onlyIf ((getb_keeps dst).bind (raxSetAll_keeps h rax))
  unfold handlePropPtr2ptr
  cases hs : sum.src with
  | nil => exact clobber_keeps h clears
  | cons i rest =>
    simp only [argIndexed]
    cases hi : argVal av i with
    | none =>
      intro s a t _ run
      obtain ⟨src, u, index, -⟩ := bind_eq_ok.mp run
      cases index
    | some src =>
      have src_eq : sum.ptr2ptrSrc av = src := by simp [Summary.ptr2ptrSrc, hs, hi]
      rw [src_eq] at copy
      rw [pure_bind]
      refine (Keeps.onlyIf ?_).bind fun _ => (clobber_keeps h clears).bind fun _ => raxFrom
      refine (Keeps.loop fun i hi => ?_).bind fun _ => raxFrom
      exact (getb_keeps _).bind fun _ => setb_keeps h (copy (mem_memSpan_self hi))

/-- What ends the two shapes with a value. -/
theorem return_keeps (h : Shadow.Ignores D C P) (clears : callerSavedSpan ⊆ D ∪ C)
    (rax : regSpan DFT_REG_RAX 0 8 ⊆ D) {f : Engine Tag} (hf : f.Keeps P) :
    (do let t ← f; clobberCallerSaved; raxSetAll t : Engine PUnit).Keeps P :=
  hf.bind fun t => (clobber_keeps h clears).bind fun _ => raxSetAll_keeps h rax t

/-- A summary keeps what its footprint does not matter for; the caller-saved registers need only
survive being cleared, except for the eight bytes of RAX. -/
theorem dispatch_keeps (h : Shadow.Ignores D C P)
    (regs : sum.shape ≠ .invalid → callerSavedSpan ⊆ D ∪ C ∧ regSpan DFT_REG_RAX 0 8 ⊆ D)
    (copy : sum.shape = .propPtr2ptr →
      memSpan (ptr2ptrDst sum av) (propLen mem sum av (sum.ptr2ptrSrc av)) ⊆ D) :
    (dispatch mem av sum).Keeps P := by
  unfold dispatch
  cases shape : sum.shape with
  | invalid => exact Keeps.pure _
  | source | sourceRetPtr | clobberOnly => exact clobber_keeps h (regs (by simp [shape])).1
  | propPtr2ptr =>
    obtain ⟨clears, rax⟩ := regs (by simp [shape])
    exact handlePropPtr2ptr_keeps h clears rax (copy shape)
  | propPtr2val =>
    obtain ⟨clears, rax⟩ := regs (by simp [shape])
    refine return_keeps h clears rax (Keeps.each (fun idx _ accum => ?_) _)
    split
    · exact Keeps.pure _
    · split_ifs
      · exact Keeps.pure _
      · exact unite_keeps h (fun _ => getb_keeps _) accum
  | propScalar =>
    obtain ⟨clears, rax⟩ := regs (by simp [shape])
    refine return_keeps h clears rax (Keeps.each (fun idx _ accum => ?_) _)
    split
    · exact Keeps.pure _
    · exact unite_keeps h (fun _ => gprGet_keeps) accum

/-- The cells outside the footprint stay as they are, whatever they hold. -/
theorem dispatch_frame (s : Shadow) :
    (dispatch mem av sum).Keeps fun t => ∀ c ∉ sum.writes mem av, t.cell c = s.cell c := by
  have ignores : Shadow.Ignores (sum.writes mem av) ∅
      fun t => ∀ c ∉ sum.writes mem av, t.cell c = s.cell c := by
    intro t u changed same c hc
    obtain kept | written | ⟨⟨⟩, -⟩ := changed c
    · exact kept.trans (same c hc)
    · exact absurd written hc
  refine dispatch_keeps ignores (fun valid => ?_) fun shape => ?_
  · have span : callerSavedSpan ⊆ sum.writes mem av := by
      unfold Summary.writes
      cases shape : sum.shape with
      | invalid => exact absurd shape valid
      | propPtr2ptr => exact Set.subset_union_left
      | source | sourceRetPtr | clobberOnly | propPtr2val | propScalar => exact subset_rfl
    refine ⟨span.trans Set.subset_union_left, fun c hc => span ?_⟩
    obtain ⟨b, hb, rfl⟩ := hc
    exact ⟨DFT_REG_RAX, by decide, mem_regSpan_self (hb.trans (by decide))⟩
  · simp only [Summary.writes, shape]
    exact Set.subset_union_right

end Keeps

end LibdftDr
