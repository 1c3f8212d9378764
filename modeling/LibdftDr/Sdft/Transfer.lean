import LibdftDr.Core.Transfer
import LibdftDr.Sdft.Hook

/-!
# What a summary leaves behind

A summary ends with the caller-saved rows cleared and RAX set. `clobberCallerSaved_run` and
`raxSetAll_run` give the register file after them exactly. With the forward copy of
`Core/Transfer` they give the state after a pointer-to-pointer summary, which stands for
`memmove` as long as the copy does not smear its source.
-/
namespace LibdftDr
open Library Library.Action

/-- The first `n` bytes of the rows all hold `t`. -/
def Shadow.withRows (s : Shadow) (rows : List ℕ) (n : ℕ) (t : Tag) : Shadow :=
  { s with gprFile := fun r b => if r ∈ rows ∧ b < n then t else s.gprFile r b }

section Rows

variable (s : Shadow) (rows : List ℕ) (n : ℕ) (t : Tag)

@[simp, grind =] theorem Shadow.sets_withRows : (s.withRows rows n t).sets = s.sets := rfl

@[simp, grind =] theorem Shadow.tagDir_withRows : (s.withRows rows n t).tagDir = s.tagDir := rfl

@[simp, grind =] theorem Shadow.cell_withRows_mem (a : ADDRINT) :
    (s.withRows rows n t).cell (.mem a) = s.cell (.mem a) := rfl

@[simp, grind =] theorem Shadow.cell_withRows_reg (r b : ℕ) :
    (s.withRows rows n t).cell (.reg r b) =
      if r ∈ rows ∧ b < n then t else s.cell (.reg r b) := rfl

@[simp] theorem Shadow.withRows_zero : s.withRows rows 0 t = s := by
  simp [Shadow.withRows]

@[simp] theorem Shadow.withRows_nil : s.withRows [] n t = s := by
  simp [Shadow.withRows]

/-- Rows that are written again do not keep what they held in between. -/
theorem Shadow.withRows_withRows {rows rows' : List ℕ} {n n' : ℕ} (t' : Tag)
    (sub : rows ⊆ rows') (le : n ≤ n') :
    (s.withRows rows n t).withRows rows' n' t' = s.withRows rows' n' t' := by
  refine congrArg (fun f => { s with gprFile := f }) ?_
  funext r b
  have := @sub r
  simp only [Shadow.withRows]
  grind

end Rows

theorem gprSet_row_run (s : Shadow) {row n : ℕ} (t : Tag) (hrow : row < GRP_NUM + 1)
    (hn : n ≤ TAGS_PER_GPR) :
    loop n (fun b => gprSet row b t) s = .ok (⟨⟩, s.withRows [row] n t) := by
  induction n with
  | zero =>
    rw [Shadow.withRows_zero]
    rfl
  | succ n ih =>
    have inFile : InFile row n := ⟨hrow, by omega⟩
    rw [loop_succ_of_ok (ih (by omega)), gprSet, if_pos inFile]
    refine congrArg (fun f => Except.ok (PUnit.unit, { s with gprFile := f })) ?_
    funext r b
    by_cases hr : r = row
    · subst hr
      simp only [Shadow.withRows, Function.update_self, Function.update_apply]
      grind
    · simp only [Shadow.withRows, Function.update_of_ne hr]
      grind

theorem gprSet_rows_run (s : Shadow) {rows : List ℕ} {n : ℕ} (t : Tag)
    (hrows : ∀ row ∈ rows, row < GRP_NUM + 1) (hn : n ≤ TAGS_PER_GPR) :
    each rows (fun row _ => loop n fun b => gprSet row b t) ⟨⟩ s =
      .ok (⟨⟩, s.withRows rows n t) := by
  induction rows generalizing s with
  | nil =>
    rw [Shadow.withRows_nil]
    rfl
  | cons row rows ih =>
    rw [each, bind_of_ok (gprSet_row_run s t (hrows row List.mem_cons_self) hn),
      ih _ fun r hr => hrows r (.tail row hr)]
    refine congrArg (fun f => Except.ok (PUnit.unit, { s with gprFile := f })) ?_
    funext r b
    simp only [Shadow.withRows]
    grind

theorem clobberCallerSaved_run (s : Shadow) :
    clobberCallerSaved s = .ok (⟨⟩, s.withRows callerSaved TAGS_PER_GPR clearedVal) :=
  gprSet_rows_run s clearedVal (fun _ => callerSaved_lt) le_rfl

theorem raxSetAll_run (s : Shadow) (t : Tag) :
    raxSetAll t s = .ok (⟨⟩, s.withRows [DFT_REG_RAX] 8 t) :=
  gprSet_row_run s t (by decide) (by decide)

/-! ## Pointer to pointer -/

/-- `t` is `s` after a call that moves `n` bytes: the tags have moved with them, RAX carries the
first of them, and the other caller-saved registers are empty. -/
structure Shadow.MovedByCall (s t : Shadow) (dst src : ADDRINT) (n : ℕ) : Prop where
  bytes : ∀ i < n, t.cell (.mem (byteAt dst i)) = s.cell (.mem (byteAt src i))
  others : ∀ a, Cell.mem a ∉ memSpan dst n → t.cell (.mem a) = s.cell (.mem a)
  rax : 0 < n → ∀ b < 8, t.cell (.reg DFT_REG_RAX b) = t.cell (.mem dst)
  clobbered : ∀ row ∈ callerSaved, ∀ b < TAGS_PER_GPR, (row = DFT_REG_RAX → b < 8 → n = 0) →
    t.cell (.reg row b) = clearedVal
  saved : ∀ row ∉ callerSaved, ∀ b, t.cell (.reg row b) = s.cell (.reg row b)

/-- The registers after a summary that puts `t` into RAX. -/
def Shadow.returned (s : Shadow) (t : Tag) : Shadow :=
  (s.withRows callerSaved TAGS_PER_GPR clearedVal).withRows [DFT_REG_RAX] 8 t

theorem raxFrom_run {s : Shadow} {dst : ADDRINT} (h : dst ≤ lastAddress) :
    (do let t ← getb dst; raxSetAll t : Engine PUnit) s =
      .ok (⟨⟩, s.withRows [DFT_REG_RAX] 8 (s.cell (.mem dst))) := by
  rw [bind_of_ok (getb_of_le h s), raxSetAll_run]

section Ptr2ptr

variable {mem : AppMem} {av : ArgVals} {sum : Summary} {s : Shadow}

/-- The first source argument, when it is a pointer. -/
theorem Summary.argIndexed_of_ptr2ptrSrc (h : sum.ptr2ptrSrc av ≠ 0) : ∃ i rest,
    sum.src = i :: rest ∧ argIndexed av i = pure (sum.ptr2ptrSrc av) := by
  unfold Summary.ptr2ptrSrc at h ⊢
  cases hs : sum.src with
  | nil => simp [hs] at h
  | cons i rest =>
    refine ⟨i, rest, rfl, ?_⟩
    simp only [hs] at h
    cases hi : argVal av i with
    | none => simp [hi] at h
    | some p => simp [argIndexed, hi]

/-- The state after a pointer-to-pointer summary. -/
theorem handlePropPtr2ptr_run (hdst : ptr2ptrDst sum av ≠ 0) (hsrc : sum.ptr2ptrSrc av ≠ 0)
    (dst : InRange (ptr2ptrDst sum av) (propLen mem sum av (sum.ptr2ptrSrc av)))
    (src : InRange (sum.ptr2ptrSrc av) (propLen mem sum av (sum.ptr2ptrSrc av))) :
    ∃ dir t, handlePropPtr2ptr mem av sum s = .ok (⟨⟩, t) ∧
      dir.tagAt = forwardCopy s.tagDir.tagAt (byteAt (ptr2ptrDst sum av))
        (byteAt (sum.ptr2ptrSrc av)) (propLen mem sum av (sum.ptr2ptrSrc av)) ∧
      t = if 0 < propLen mem sum av (sum.ptr2ptrSrc av)
        then (s.withTagDir dir).returned (dir.tagAt (ptr2ptrDst sum av))
        else (s.withTagDir dir).withRows callerSaved TAGS_PER_GPR clearedVal := by
  obtain ⟨i, rest, hs, arg⟩ := Summary.argIndexed_of_ptr2ptrSrc hsrc
  obtain ⟨dir, copy, copied⟩ := m2mXfer_run (s := s) dst src
  rw [m2mXfer] at copy
  refine ⟨dir, _, ?_, copied, rfl⟩
  simp only [handlePropPtr2ptr, hs, arg, pure_bind]
  rw [onlyIf_of ⟨hdst, hsrc⟩]
  by_cases hn : 0 < propLen mem sum av (sum.ptr2ptrSrc av)
  · have first : ptr2ptrDst sum av ≤ lastAddress := byteAt_zero (ptr2ptrDst sum av) ▸ dst 0 hn
    have rax : [DFT_REG_RAX] ⊆ callerSaved := by decide
    rw [if_pos hn, onlyIf_of hn, onlyIf_of ⟨hdst, hn⟩,
      bind_of_ok ((bind_of_ok copy).trans (raxFrom_run first)),
      bind_of_ok (clobberCallerSaved_run _), raxFrom_run first,
      Shadow.withRows_withRows _ _ clearedVal rax (by decide : 8 ≤ TAGS_PER_GPR)]
    rfl
  · rw [if_neg hn, onlyIf_of_not hn, onlyIf_of_not fun h => hn h.2,
      bind_of_ok (bind_of_ok copy), bind_of_ok (clobberCallerSaved_run _)]
    rfl

theorem cell_of_returned {t : Shadow} {dir : TagDir} {n : ℕ} {v : Tag}
    (state : t = if 0 < n then (s.withTagDir dir).returned v
      else (s.withTagDir dir).withRows callerSaved TAGS_PER_GPR clearedVal) (a : ADDRINT) :
    t.cell (.mem a) = dir.tagAt a := by
  rw [state]
  split_ifs <;> rfl

/-- A summary that has moved the tags has not smeared them. -/
theorem not_smears_of_movedByCall {t : Shadow} {n : ℕ} (hdst : ptr2ptrDst sum av ≠ 0)
    (hsrc : sum.ptr2ptrSrc av ≠ 0) (len : propLen mem sum av (sum.ptr2ptrSrc av) = n)
    (dst : InRange (ptr2ptrDst sum av) n) (src : InRange (sum.ptr2ptrSrc av) n)
    (run : handlePropPtr2ptr mem av sum s = .ok (⟨⟩, t))
    (moved : s.MovedByCall t (ptr2ptrDst sum av) (sum.ptr2ptrSrc av) n) :
    ¬ s.Smears (ptr2ptrDst sum av) (sum.ptr2ptrSrc av) n := by
  subst len
  obtain ⟨dir, t', run', copied, state⟩ := handlePropPtr2ptr_run (s := s) hdst hsrc dst src
  cases run.symm.trans run'
  refine (Shadow.moved_iff dst src copied).mp ⟨fun i hi => ?_, fun c hc => ?_, rfl⟩
  · exact (cell_of_returned state _).symm.trans (moved.bytes i hi)
  · exact Shadow.cell_of_forwardCopy copied hc

/-- A summary whose copy does not smear has moved the tags. -/
theorem movedByCall_of_not_smears {n : ℕ} (hdst : ptr2ptrDst sum av ≠ 0)
    (hsrc : sum.ptr2ptrSrc av ≠ 0) (len : propLen mem sum av (sum.ptr2ptrSrc av) = n)
    (dst : InRange (ptr2ptrDst sum av) n) (src : InRange (sum.ptr2ptrSrc av) n)
    (apart : ¬ s.Smears (ptr2ptrDst sum av) (sum.ptr2ptrSrc av) n) :
    ∃ t, handlePropPtr2ptr mem av sum s = .ok (⟨⟩, t) ∧
      s.MovedByCall t (ptr2ptrDst sum av) (sum.ptr2ptrSrc av) n := by
  subst len
  obtain ⟨dir, t, run, copied, state⟩ := handlePropPtr2ptr_run (s := s) hdst hsrc dst src
  have moved := (Shadow.moved_iff dst src copied).mpr apart
  have kept : ∀ r b, (s.withTagDir dir).cell (.reg r b) = s.cell (.reg r b) := fun _ _ => rfl
  refine ⟨t, run, ?_⟩
  constructor
  · exact fun i hi => (cell_of_returned state _).trans (moved.bytes i hi)
  · exact fun a ha => (cell_of_returned state a).trans (moved.frame _ ha)
  · intro hn b hb
    rw [cell_of_returned state, state, if_pos hn]
    grind [Shadow.returned]
  · intro row hrow b hb other
    rw [state]
    split_ifs with hn <;> grind [Shadow.returned]
  · intro row hrow b
    have : row ≠ DFT_REG_RAX := by
      rintro rfl
      exact hrow (by decide)
    rw [state]
    split_ifs with hn <;> grind [Shadow.returned]

end Ptr2ptr

/-- A pointer-to-pointer summary moves the tags as `memmove` moves the bytes if and only if the
destination does not start inside the source, or the tags of the source repeat at that
distance. -/
theorem ptr2ptr_moves_iff {mem : AppMem} {av : ArgVals} {sum : Summary} {s : Shadow}
    (shape : sum.shape = .propPtr2ptr) (hdst : ptr2ptrDst sum av ≠ 0)
    (hsrc : sum.ptr2ptrSrc av ≠ 0)
    (len : (resolveLen mem sum.len av (sum.ptr2ptrSrc av)).toNat ≤ MAX_PROP_BYTES)
    (dst : InRange (ptr2ptrDst sum av) (resolveLen mem sum.len av (sum.ptr2ptrSrc av)).toNat)
    (src : InRange (sum.ptr2ptrSrc av) (resolveLen mem sum.len av (sum.ptr2ptrSrc av)).toNat) :
    (∃ t, dispatch mem av sum s = .ok (⟨⟩, t) ∧ s.MovedByCall t (ptr2ptrDst sum av)
        (sum.ptr2ptrSrc av) (resolveLen mem sum.len av (sum.ptr2ptrSrc av)).toNat) ↔
      ¬ s.Smears (ptr2ptrDst sum av) (sum.ptr2ptrSrc av)
        (resolveLen mem sum.len av (sum.ptr2ptrSrc av)).toNat := by
  have whole : propLen mem sum av (sum.ptr2ptrSrc av) =
      (resolveLen mem sum.len av (sum.ptr2ptrSrc av)).toNat := min_eq_left len
  rw [dispatch, shape]
  constructor
  · rintro ⟨t, run, moved⟩
    exact not_smears_of_movedByCall hdst hsrc whole dst src run moved
  · exact movedByCall_of_not_smears hdst hsrc whole dst src

def noMem : AppMem := fun _ => none

/-- `FUNC * memmove PROP_PTR2PTR dst=arg0 src=arg1 len=arg2`. -/
def memmoveSummary : Summary where
  shape := .propPtr2ptr
  dst := ⟨.arg, 0⟩
  src := [1]
  len := ⟨.arg, 2⟩
  args := []

def memmoveArgs (dst src n : ADDRINT) : ArgVals := fun i =>
  if i.val = 0 then dst else if i.val = 1 then src else if i.val = 2 then n else 0

section Memmove

variable (dst src n : ADDRINT)

@[simp] theorem memmove_dst : ptr2ptrDst memmoveSummary (memmoveArgs dst src n) = dst := rfl

@[simp] theorem memmove_src : memmoveSummary.ptr2ptrSrc (memmoveArgs dst src n) = src := rfl

@[simp] theorem memmove_len :
    resolveLen noMem memmoveSummary.len (memmoveArgs dst src n) src = n := rfl

end Memmove

/-- A word moved two bytes up arrives with its tags; moved by one, it does not. -/
theorem ptr2ptr_moves_iff_word :
    (∃ t, dispatch noMem (memmoveArgs 0x1002 0x1000 2) memmoveSummary (oneTainted 0x1000) =
      .ok (⟨⟩, t) ∧ (oneTainted 0x1000).MovedByCall t 0x1002 0x1000 2) ∧
    ¬ ∃ t, dispatch noMem (memmoveArgs 0x1001 0x1000 2) memmoveSummary (oneTainted 0x1000) =
      .ok (⟨⟩, t) ∧ (oneTainted 0x1000).MovedByCall t 0x1001 0x1000 2 := by
  have src : InRange 0x1000 2 := inRange_of_toNat_le (by decide)
  have word : ∀ dst, dst ≠ 0 → InRange dst 2 →
      ((∃ t, dispatch noMem (memmoveArgs dst 0x1000 2) memmoveSummary (oneTainted 0x1000) =
        .ok (⟨⟩, t) ∧ (oneTainted 0x1000).MovedByCall t dst 0x1000 2) ↔
        ¬ (oneTainted 0x1000).Smears dst 0x1000 2) :=
    fun dst h0 hd => ptr2ptr_moves_iff rfl h0 (show (0x1000 : ADDRINT) ≠ 0 by decide)
      (show 2 ≤ MAX_PROP_BYTES by decide) hd src
  constructor
  · exact (word 0x1002 (by decide) (inRange_of_toNat_le (by decide))).mpr
      (Shadow.not_smears_of_le (by decide))
  · intro moves
    exact (word 0x1001 (by decide) (inRange_of_toNat_le (by decide))).mp moves
      oneTainted_smears

/-- A `memmove` by one byte upwards leaves the tag of the first byte on the second as well. -/
theorem ptr2ptr_smears :
    ¬ ∀ (mem : AppMem) (av : ArgVals) (sum : Summary) (s : Shadow), sum.shape = .propPtr2ptr →
      ptr2ptrDst sum av ≠ 0 → sum.ptr2ptrSrc av ≠ 0 →
      (resolveLen mem sum.len av (sum.ptr2ptrSrc av)).toNat ≤ MAX_PROP_BYTES →
      InRange (ptr2ptrDst sum av) (resolveLen mem sum.len av (sum.ptr2ptrSrc av)).toNat →
      InRange (sum.ptr2ptrSrc av) (resolveLen mem sum.len av (sum.ptr2ptrSrc av)).toNat →
      ∃ t, dispatch mem av sum s = .ok (⟨⟩, t) ∧ s.MovedByCall t (ptr2ptrDst sum av)
        (sum.ptr2ptrSrc av) (resolveLen mem sum.len av (sum.ptr2ptrSrc av)).toNat := by
  intro claim
  have dst : InRange 0x1001 2 := inRange_of_toNat_le (by decide)
  have src : InRange 0x1000 2 := inRange_of_toNat_le (by decide)
  have summary := claim noMem (memmoveArgs 0x1001 0x1000 2) memmoveSummary (oneTainted 0x1000) rfl
  simp only [memmove_dst, memmove_src, memmove_len] at summary
  obtain ⟨t, run, moved⟩ := summary (by decide) (by decide) (by decide) dst src
  exact @not_smears_of_movedByCall noMem (memmoveArgs 0x1001 0x1000 2) memmoveSummary
    (oneTainted 0x1000) t 2 (by decide) (by decide) rfl dst src run moved oneTainted_smears

end LibdftDr
