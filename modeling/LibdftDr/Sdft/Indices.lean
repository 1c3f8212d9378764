import LibdftDr.Core.Agreement
import LibdftDr.Sdft.Summaries
import LibdftDr.Sdft.Transfer

/-!
# Argument indices in summaries

The file may give any integers as argument indices. The handlers skip those that are not 0 to
5, except that the pointer-to-pointer one uses the first index of `src=` as it is.
`dispatch_safe_iff` says for which files and names that matters.
-/
namespace LibdftDr
open Library Library.Action

def isArgIndex (i : ℤ) : Bool := decide (0 ≤ i) && decide (i ≤ 5)

/-- The summary without the indices that are not those of a register argument. -/
def Summary.dropInvalid (sum : Summary) : Summary :=
  { sum with src := sum.src.filter isArgIndex, args := sum.args.filter isArgIndex }

/-- The rows of RDI, RSI, RDX, RCX, R8 and R9. -/
def argRows : List ℕ :=
  [DFT_REG_RDI, DFT_REG_RSI, DFT_REG_RDX, DFT_REG_RCX, DFT_REG_R8, DFT_REG_R9]

/-- The register bytes outside the argument registers. -/
def otherRows : Set Cell := {c | ∃ row byte, row ∉ argRows ∧ c = .reg row byte}

/-- `s'` and `t'` come from `s` and `t` without a look at the registers that are not arguments:
what the summary writes, RAX and the other caller-saved rows included, is the same in both, and
the other cells of these registers are as they were. -/
structure Summary.BlindTo (sum : Summary) (mem : AppMem) (av : ArgVals) (s t s' t' : Shadow) :
    Prop where
  agree : Shadow.AgreeOff (otherRows \ sum.writes mem av) s' t'
  kept : ∀ c ∈ otherRows \ sum.writes mem av, s'.cell c = s.cell c ∧ t'.cell c = t.cell c

/-- The dispatch indexes nothing out of bounds, reads no register other than the argument
registers, and does what it does without the invalid indices. -/
structure Summary.SafeIn (sum : Summary) (mem : AppMem) (av : ArgVals) (s : Shadow) : Prop where
  inBounds : dispatch mem av sum s ≠ .error .outOfBounds
  rows : ∀ t, Shadow.AgreeOff otherRows s t →
    SameOutcome (sum.BlindTo mem av s t) (dispatch mem av sum s) (dispatch mem av sum t)
  ignored : dispatch mem av sum s = dispatch mem av sum.dropInvalid s

section Reads

variable {mem : AppMem} {av : ArgVals} {sum : Summary}

theorem argToReg_mem {i : ℤ} {row : ℕ} (h : argToReg i = some row) : row ∈ argRows := by
  unfold argToReg at h
  split at h <;> cases h <;> decide

theorem mem_not_otherRows (a : ADDRINT) : Cell.mem a ∉ otherRows := by
  rintro ⟨row, byte, -, h⟩
  cases h

theorem argRow_not_otherRows {row : ℕ} (h : row ∈ argRows) (byte : ℕ) :
    Cell.reg row byte ∉ otherRows := by
  rintro ⟨row', byte', out, e⟩
  cases e
  exact out h

/-- Rows that are cleared agree whatever they held. -/
theorem clobber_carries : Carries (Shadow.AgreeOff otherRows)
    (Shadow.AgreeOff (otherRows \ callerSavedSpan)) clobberCallerSaved := by
  intro s t agree
  rw [clobberCallerSaved_run, clobberCallerSaved_run]
  refine .ok ⟨agree.sets, fun c hc => ?_⟩
  cases c with
  | mem a => exact agree.cells _ (mem_not_otherRows a)
  | reg row b =>
    rw [Shadow.cell_withRows_reg, Shadow.cell_withRows_reg]
    split_ifs with cleared
    · rfl
    · refine agree.cells _ fun other => hc ⟨other, ?_⟩
      rintro ⟨row', hrow, span⟩
      obtain ⟨rfl, -, hb⟩ := mem_regSpan.mp span
      exact cleared ⟨hrow, by omega⟩

theorem raxSetAll_respects {X : Set Cell} (t : Tag) :
    Respects (Shadow.AgreeOff X) (raxSetAll t) :=
  Respects.loop fun b _ => gprSet_respects _ b t

theorem getb_respects_rows {X : Set Cell} (sub : X ⊆ otherRows) (a : ADDRINT) :
    Respects (Shadow.AgreeOff X) (getb a) :=
  getb_respects fun hX => mem_not_otherRows a (sub hX)

/-- What ends the two shapes with a value. -/
theorem return_carries {f : Engine Tag} (h : Respects (Shadow.AgreeOff otherRows) f) :
    Carries (Shadow.AgreeOff otherRows) (Shadow.AgreeOff (otherRows \ callerSavedSpan))
      (do let t ← f; clobberCallerSaved; raxSetAll t) :=
  Carries.bind h fun t => clobber_carries.bind fun _ => raxSetAll_respects t

theorem raxFrom_respects {X : Set Cell} (sub : X ⊆ otherRows) {c : Prop} [Decidable c]
    (dst : ADDRINT) :
    Respects (Shadow.AgreeOff X) (onlyIf c do let t ← getb dst; raxSetAll t) :=
  Respects.onlyIf ((getb_respects_rows sub dst).bind raxSetAll_respects)

theorem handlePropPtr2ptr_carries :
    Carries (Shadow.AgreeOff otherRows) (Shadow.AgreeOff (otherRows \ callerSavedSpan))
      (handlePropPtr2ptr mem av sum) := by
  unfold handlePropPtr2ptr
  cases sum.src with
  | nil => exact clobber_carries
  | cons i rest =>
    have first : Respects (Shadow.AgreeOff otherRows) (argIndexed av i) := by
      unfold argIndexed
      cases argVal av i with
      | none => exact Respects.fail _
      | some a => exact Respects.pure a
    refine Carries.bind first fun src => Carries.bind (Respects.onlyIf ?_) fun _ =>
      clobber_carries.bind fun _ => raxFrom_respects Set.sdiff_subset _
    refine Respects.bind (Respects.loop fun i _ => ?_) fun _ => raxFrom_respects subset_rfl _
    exact (getb_respects_rows subset_rfl _).bind fun t => setb_respects _ t

theorem handlePropPtr2val_carries :
    Carries (Shadow.AgreeOff otherRows) (Shadow.AgreeOff (otherRows \ callerSavedSpan))
      (handlePropPtr2val mem av sum) := by
  refine return_carries (Respects.each (fun idx _ accum => ?_) _)
  cases argVal av idx with
  | none => exact Respects.pure _
  | some p =>
    exact Respects.ite (fun _ => Respects.pure _) fun _ =>
      unite_respects (fun i _ => getb_respects_rows subset_rfl _) accum

theorem handlePropScalar_carries :
    Carries (Shadow.AgreeOff otherRows) (Shadow.AgreeOff (otherRows \ callerSavedSpan))
      (handlePropScalar sum) := by
  refine return_carries (Respects.each (fun idx _ accum => ?_) _)
  cases h : argToReg idx with
  | none => exact Respects.pure _
  | some reg =>
    refine unite_respects (fun b _ => gprGet_respects ?_) accum
    exact argRow_not_otherRows (argToReg_mem h) b

theorem dispatch_carries : Carries (Shadow.AgreeOff otherRows)
    (Shadow.AgreeOff (otherRows \ sum.writes mem av)) (dispatch mem av sum) := by
  unfold dispatch Summary.writes
  cases sum.shape with
  | invalid =>
    refine Carries.weaken (Respects.pure _) fun s t agree => agree.mono fun c hc => ?_
    exact ⟨hc, id⟩
  | source | sourceRetPtr | clobberOnly => exact clobber_carries
  | propPtr2ptr =>
    refine handlePropPtr2ptr_carries.weaken fun s t agree => agree.mono ?_
    rintro c ⟨other, out⟩
    refine ⟨other, fun written => written.elim out fun hmem => ?_⟩
    obtain ⟨i, -, rfl⟩ := hmem
    exact mem_not_otherRows _ other
  | propPtr2val => exact handlePropPtr2val_carries
  | propScalar => exact handlePropScalar_carries

theorem dispatch_blindTo {s t : Shadow} (agree : Shadow.AgreeOff otherRows s t) :
    SameOutcome (sum.BlindTo mem av s t) (dispatch mem av sum s) (dispatch mem av sum t) := by
  have alike : SameOutcome (Shadow.AgreeOff (otherRows \ sum.writes mem av))
      (dispatch mem av sum s) (dispatch mem av sum t) := dispatch_carries s t agree
  refine (alike.and fun a s' t' hs ht => ?_).mono fun s' t' h => Summary.BlindTo.mk h.1 h.2
  exact fun c hc => ⟨dispatch_frame s s a s' (fun _ _ => rfl) hs c hc.2,
    dispatch_frame t t a t' (fun _ _ => rfl) ht c hc.2⟩

end Reads

/-! ## Invalid indices -/

section Invalid

variable {mem : AppMem} {av : ArgVals} {sum : Summary} {i : ℤ} {s : Shadow}

theorem isArgIndex_iff : isArgIndex i = true ↔ 0 ≤ i ∧ i ≤ 5 := by simp [isArgIndex]

theorem argVal_of_not (h : isArgIndex i = false) : argVal av i = none :=
  dif_neg (mt isArgIndex_iff.mpr (by simp [h]))

theorem argToReg_of_not (h : isArgIndex i = false) : argToReg i = none := by
  unfold argToReg
  split <;> first | cases h | rfl

theorem handlePropPtr2val_dropInvalid :
    handlePropPtr2val mem av sum.dropInvalid = handlePropPtr2val mem av sum := by
  unfold handlePropPtr2val
  refine congrArg (· >>= fun accum => do clobberCallerSaved; raxSetAll accum) ?_
  refine each_filter isArgIndex sum.src (fun idx h accum => ?_) clearedVal
  rw [argVal_of_not h]

theorem handlePropScalar_dropInvalid :
    handlePropScalar sum.dropInvalid = handlePropScalar sum := by
  unfold handlePropScalar
  refine congrArg (· >>= fun accum => do clobberCallerSaved; raxSetAll accum) ?_
  refine each_filter isArgIndex sum.args (fun idx h accum => ?_) clearedVal
  rw [argToReg_of_not h]

theorem handlePropPtr2ptr_dropInvalid (ok : ∀ i ∈ sum.src.head?, 0 ≤ i ∧ i ≤ 5) :
    handlePropPtr2ptr mem av sum.dropInvalid = handlePropPtr2ptr mem av sum := by
  unfold handlePropPtr2ptr
  have src : sum.dropInvalid.src = sum.src.filter isArgIndex := rfl
  rw [src]
  cases h : sum.src with
  | nil => rfl
  | cons i rest =>
    have first : isArgIndex i = true := isArgIndex_iff.mpr (ok i (by simp [h]))
    rw [List.filter_cons_of_pos first]
    rfl

theorem dispatch_dropInvalid (ok : sum.FirstOk) :
    dispatch mem av sum.dropInvalid = dispatch mem av sum := by
  unfold dispatch
  have shape : sum.dropInvalid.shape = sum.shape := rfl
  rw [shape]
  cases h : sum.shape with
  | invalid | source | sourceRetPtr | clobberOnly => rfl
  | propPtr2ptr => exact handlePropPtr2ptr_dropInvalid (ok h)
  | propPtr2val => exact handlePropPtr2val_dropInvalid
  | propScalar => exact handlePropScalar_dropInvalid

/-- An invalid first index of a pointer-to-pointer summary is used. -/
theorem dispatch_of_not_firstOk (bad : ¬ sum.FirstOk) :
    dispatch mem av sum s = .error .outOfBounds := by
  simp only [Summary.FirstOk, not_forall, exists_prop] at bad
  obtain ⟨shape, i, hi, out⟩ := bad
  obtain ⟨rest, src⟩ := List.head?_eq_some_iff.mp hi
  have none : argVal av i = none := dif_neg out
  unfold dispatch handlePropPtr2ptr argIndexed
  simp only [shape, src, none]
  exact bind_of_error rfl

theorem Summary.safeIn_iff (sound : s.Sound) : sum.SafeIn mem av s ↔ sum.FirstOk := by
  constructor
  · intro safe
    by_contra bad
    exact safe.inBounds (dispatch_of_not_firstOk bad)
  · intro ok
    refine ⟨fun fault => ?_, fun t agree => dispatch_blindTo agree,
      congrFun (dispatch_dropInvalid ok).symm s⟩
    have flow : Flow (sum.writes mem av) Set.univ ∅ _ _ (dispatch mem av sum) := dispatch_flow ok
    obtain ⟨returns, faults⟩ := flow s ⟨sound, sound.within_univ⟩ (by simp)
    by_cases inRange : ∀ a ∈ sum.reads mem av, a ≤ lastAddress
    · obtain ⟨_, t, run, -⟩ := returns inRange
      cases run.symm.trans fault
    · cases (faults inRange).symm.trans fault

end Invalid

/-! ## Summaries of a file -/

/-- The entry of the file that stands for a name: its own, or that of the first alias with one. -/
def SummaryTable.entry (tb : SummaryTable) (name : Text) : Option SummaryEntry :=
  match tb.funcs name with
  | some e => some e
  | none => findAlias tb name tb.aliases

section Table

variable {file : Option Text} {tb₀ tb : SummaryTable} {name : Text} {e : SummaryEntry}

theorem find_of_entry (h : tb.entry name = some e) : tb.find name = some e := by
  cases func : tb.funcs name with
  | some s => simpa only [SummaryTable.entry, SummaryTable.find, func] using h
  | none =>
    simp only [SummaryTable.entry, func] at h
    simp only [SummaryTable.find, func, h]

theorem entry_of_find (h : tb.find name = some e) :
    tb.entry name = some e ∨ e = tb.conservativeDefault := by
  cases func : tb.funcs name with
  | some s =>
    refine .inl ?_
    simpa only [SummaryTable.entry, SummaryTable.find, func] using h
  | none =>
    cases other : findAlias tb name tb.aliases with
    | some s =>
      refine .inl ?_
      simpa only [SummaryTable.entry, SummaryTable.find, func, other] using h
    | none =>
      simp only [SummaryTable.find, func, other] at h
      split_ifs at h
      exact .inr (Option.some.inj h).symm

theorem loadSummaries_default_firstOk (load : loadSummaries file tb₀ = (true, tb)) :
    tb.conservativeDefault.FirstOk := by
  unfold loadSummaries at load
  split at load
  · cases load
  · cases load
    rintro ⟨⟩

end Table

/-- A summary of a copy whose source is argument 7, and one whose source is argument 1. -/
def copyConf : Text :=
  "FUNC f PROP_PTR2PTR dst=0 src=7 len=2\nFUNC g PROP_PTR2PTR dst=0 src=1,9 len=2".toList

def copyTable : SummaryTable := (loadSummaries (some copyConf) .new).2

theorem copyTable_load : loadSummaries (some copyConf) .new = (true, copyTable) := rfl

def copyEntry (src : List ℤ) : SummaryEntry where
  shape := .propPtr2ptr
  dst := ⟨.arg, 0⟩
  src := src
  len := ⟨.arg, 2⟩
  args := []
  buf := -1

theorem copyTable_entry :
    copyTable.entry ['f'] = some (copyEntry [7]) ∧
      copyTable.entry ['g'] = some (copyEntry [1, 9]) :=
  ⟨rfl, rfl⟩

theorem copyEntry_firstOk_iff (i : ℤ) (src : List ℤ) :
    (copyEntry (i :: src)).FirstOk ↔ 0 ≤ i ∧ i ≤ 5 := by
  simp [Summary.FirstOk, copyEntry]

end LibdftDr
