import LibdftDr.Core.Shifts
import LibdftDr.Machine.Labels
import LibdftDr.Sdft.Transfer

/-!
# Summaries with a value

Five of the six shapes leave one tag in all of RAX and nothing in the other caller-saved
registers. The tag is the union of what the listed pointers point to, or of the listed argument
registers as they were before the call, or empty. Which indices are listed counts, and neither
their order nor how often.
-/
namespace LibdftDr
open Library Library.Action

/-- The labels that a summary puts into RAX. -/
def Summary.Gathers (mem : AppMem) (av : ArgVals) (sum : Summary) (s : Shadow) (l : ℕ) : Prop :=
  match sum.shape with
  | .propPtr2val => ∃ i ∈ sum.src, ∃ p, argVal av i = some p ∧ p ≠ 0 ∧
      ∃ k < min (resolveLen mem sum.len av p).toNat 262144, l ∈ s.labelsOf (.mem (byteAt p k))
  | .propScalar => ∃ i ∈ sum.args, ∃ row, argToReg i = some row ∧
      ∃ b < 8, l ∈ s.labelsOf (.reg row b)
  | _ => False

/-- `t` is `s` after a call with a value: RAX holds one tag, of the labels given, and all that is
left of the caller-saved registers is empty. -/
structure Shadow.ReturnsValue (s t : Shadow) (v : Tag) (labels : ℕ → Prop) : Prop where
  rax : ∀ b < 8, t.cell (.reg DFT_REG_RAX b) = v
  labels : t.InIds → ∀ l, l ∈ t.sets.setOf v ↔ labels l
  high : ∀ b, 8 ≤ b → b < TAGS_PER_GPR → t.cell (.reg DFT_REG_RAX b) = clearedVal
  clobbered : ∀ row ∈ callerSaved, row ≠ DFT_REG_RAX → ∀ b < TAGS_PER_GPR,
    t.cell (.reg row b) = clearedVal
  saved : ∀ row ∉ callerSaved, ∀ b, t.cell (.reg row b) = s.cell (.reg row b)
  mem : ∀ a, t.cell (.mem a) = s.cell (.mem a)

/-- The shapes with a value. -/
def Shape.HasValue : Shape → Prop
  | .source | .sourceRetPtr | .clobberOnly | .propPtr2val | .propScalar => True
  | .propPtr2ptr | .invalid => False

/-- The shapes whose value is untainted. -/
def Shape.Clobbers : Shape → Prop
  | .source | .sourceRetPtr | .clobberOnly => True
  | _ => False

section Gathering

variable {held : Set (Tag × Finset ℕ)} {m : Cell → Finset ℕ} {mem : AppMem} {av : ArgVals}
  {sum : Summary} {s t : Shadow}

/-- The labels of what an argument points to. -/
def pointedTo (mem : AppMem) (av : ArgVals) (sum : Summary) (m : Cell → Finset ℕ) (i : ℤ) :
    Finset ℕ :=
  match argVal av i with
  | none => ∅
  | some p => if p = 0 then ∅ else allOf (fun k => .mem (byteAt p k)) (propLen mem sum av p) m

/-- The labels of an argument register. -/
def argLabels (m : Cell → Finset ℕ) (i : ℤ) : Finset ℕ :=
  match argToReg i with
  | none => ∅
  | some row => allOf (fun b => .reg row b) 8 m

/-- Every buffer of a pointer-to-value summary is in user memory. -/
def Summary.BuffersInRange (mem : AppMem) (av : ArgVals) (sum : Summary) : Prop :=
  ∀ i ∈ sum.src, ∀ p, argVal av i = some p → p ≠ 0 → InRange p (propLen mem sum av p)

/-- The first part of `handle_prop_ptr2val`. -/
def ptr2valTag (mem : AppMem) (av : ArgVals) (sum : Summary) : Engine Tag :=
  each sum.src (fun idx accum =>
    match argVal av idx with
    | none => pure accum
    | some p =>
      if p = 0 then pure accum
      else unite (propLen mem sum av p) (fun i => getb (byteAt p i)) accum) clearedVal

/-- The first part of `handle_prop_scalar`. -/
def scalarTag (sum : Summary) : Engine Tag :=
  each sum.args (fun idx accum =>
    match argToReg idx with
    | none => pure accum
    | some reg => unite 8 (fun b => gprGet reg b) accum) clearedVal

theorem ptr2valTag_does (user : sum.BuffersInRange mem av) :
    byLabels.Does held m
      (fun t => {(t, sum.src.foldl (fun u i => u ∪ pointedTo mem av sum m i) ∅)}) m
      (ptr2valTag mem av sum) := by
  refine Meaning.clearedVal_does (View.Does.each (.inr rfl) fun i hi held _ u w hu => ?_)
  have same : (u, w ∪ ∅) ∈ held := by rwa [Finset.union_empty]
  unfold pointedTo
  cases hp : argVal av i with
  | none => exact View.Does.pure (Set.singleton_subset_iff.mpr same)
  | some p =>
    dsimp only
    split_ifs with h0
    · exact View.Does.pure (Set.singleton_subset_iff.mpr same)
    · exact unite_does hu fun k hk held => Meaning.getb_does (user i hi p hp h0 k hk)

theorem scalarTag_does :
    byLabels.Does held m (fun t => {(t, sum.args.foldl (fun u i => u ∪ argLabels m i) ∅)}) m
      (scalarTag sum) := by
  refine Meaning.clearedVal_does (View.Does.each (.inr rfl) fun i _ held _ u w hu => ?_)
  have same : (u, w ∪ ∅) ∈ held := by rwa [Finset.union_empty]
  unfold argLabels
  cases hrow : argToReg i with
  | none => exact View.Does.pure (Set.singleton_subset_iff.mpr same)
  | some row =>
    refine unite_does hu fun b hb held => Meaning.gprGet_does ⟨argToReg_lt hrow, ?_⟩
    rw [TAGS_PER_GPR]
    omega

/-- A tag that is gathered while no cell changes ends up in RAX. -/
theorem returns_of_gathered {f : Engine Tag} {w : Finset ℕ} (sound : s.Sound)
    (gathers : byLabels.Does ∅ s.labelsOf (fun t => {(t, w)}) s.labelsOf f) :
    ∃ (v : Tag) (u : Shadow), (do let t ← f; clobberCallerSaved; raxSetAll t : Engine PUnit) s =
      .ok (⟨⟩, u.returned v) ∧ (u.InIds → u.sets.setOf v = w) := by
  obtain ⟨v, u, run, -, -, denotes⟩ := gathers s sound.shows_labelsOf (by simp)
  refine ⟨v, u, ?_, (denotes _ rfl).2⟩
  rw [bind_of_ok run, bind_of_ok (clobberCallerSaved_run u), raxSetAll_run]
  rfl

/-- The union that a summary puts into RAX, in the order in which it is gathered. -/
def Summary.value (mem : AppMem) (av : ArgVals) (sum : Summary) (m : Cell → Finset ℕ) : Finset ℕ :=
  match sum.shape with
  | .propPtr2val => sum.src.foldl (fun u i => u ∪ pointedTo mem av sum m i) ∅
  | .propScalar => sum.args.foldl (fun u i => u ∪ argLabels m i) ∅
  | _ => ∅

theorem mem_value {l : ℕ} : l ∈ sum.value mem av s.labelsOf ↔ sum.Gathers mem av s l := by
  unfold Summary.value Summary.Gathers
  cases sum.shape with
  | propPtr2val =>
    simp only [mem_foldl_union, Finset.notMem_empty, false_or]
    refine exists_congr fun i => and_congr_right fun _ => ?_
    unfold pointedTo
    cases argVal av i with
    | none => simp
    | some p =>
      by_cases h0 : p = 0
      · simp [h0]
      · dsimp only
        rw [if_neg h0, mem_allOf]
        constructor
        · exact fun h => ⟨p, rfl, h0, h⟩
        · rintro ⟨q, ⟨⟩, -, h⟩
          exact h
  | propScalar =>
    simp only [mem_foldl_union, Finset.notMem_empty, false_or]
    refine exists_congr fun i => and_congr_right fun _ => ?_
    unfold argLabels
    cases argToReg i with
    | none => simp
    | some row => simp [mem_allOf]
  | _ => simp

theorem Shadow.returned_clearedVal (s : Shadow) :
    s.returned clearedVal = s.withRows callerSaved TAGS_PER_GPR clearedVal := by
  refine congrArg (fun f => { s with gprFile := f }) ?_
  funext r b
  simp only [Shadow.withRows]
  have rax : DFT_REG_RAX ∈ callerSaved := by decide
  grind [TAGS_PER_GPR]

/-- A summary with a value gathers its tag and leaves it in RAX. -/
theorem dispatch_value_run (mem : AppMem) (av : ArgVals) (shape : sum.shape.HasValue)
    (sound : s.Sound) (user : sum.shape = .propPtr2val → sum.BuffersInRange mem av) :
    ∃ (v : Tag) (u : Shadow), dispatch mem av sum s = .ok (⟨⟩, u.returned v) ∧
      (u.InIds → u.sets.setOf v = sum.value mem av s.labelsOf) ∧
      (sum.shape.Clobbers → v = clearedVal) := by
  have clobbers : ∃ (v : Tag) (u : Shadow), clobberCallerSaved s = .ok (⟨⟩, u.returned v) ∧
      (u.InIds → u.sets.setOf v = ∅) ∧ (True → v = clearedVal) :=
    ⟨clearedVal, s, by rw [clobberCallerSaved_run, Shadow.returned_clearedVal],
      fun _ => sound.live.setOf_clearedVal, fun _ => rfl⟩
  unfold dispatch Summary.value
  cases hshape : sum.shape with
  | source | sourceRetPtr | clobberOnly => exact clobbers
  | propPtr2val =>
    obtain ⟨v, u, run, union⟩ := returns_of_gathered sound (ptr2valTag_does (user hshape))
    exact ⟨v, u, run, union, False.elim⟩
  | propScalar =>
    have gathers : byLabels.Does ∅ s.labelsOf _ s.labelsOf (scalarTag sum) := scalarTag_does
    obtain ⟨v, u, run, union⟩ := returns_of_gathered sound gathers
    exact ⟨v, u, run, union, False.elim⟩
  | propPtr2ptr | invalid =>
    rw [hshape] at shape
    exact shape.elim

end Gathering

/-- Summaries that list the same indices, in any order and any number of times. -/
structure Summary.SameIndices (sum sum' : Summary) : Prop where
  shape : sum'.shape = sum.shape
  len : sum'.len = sum.len
  src : ∀ i, i ∈ sum'.src ↔ i ∈ sum.src
  args : ∀ i, i ∈ sum'.args ↔ i ∈ sum.args

theorem Summary.SameIndices.gathers_iff {sum sum' : Summary} (h : sum.SameIndices sum')
    {mem : AppMem} {av : ArgVals} {s : Shadow} {l : ℕ} :
    sum'.Gathers mem av s l ↔ sum.Gathers mem av s l := by
  unfold Summary.Gathers
  rw [h.shape, h.len]
  simp only [h.src, h.args]

section Values

variable {mem : AppMem} {av : ArgVals} {sum : Summary} {s t t' : Shadow} {v v' : Tag}
  {labels : ℕ → Prop}

theorem dispatch_returnsValue (shape : sum.shape.HasValue) (sound : s.Sound)
    (user : sum.shape = .propPtr2val → sum.BuffersInRange mem av) :
    ∃ v t, dispatch mem av sum s = .ok (⟨⟩, t) ∧
      s.ReturnsValue t v (sum.Gathers mem av s) ∧ (sum.shape.Clobbers → v = clearedVal) ∧
        t.Sound ∧ Shadow.Le callerSavedSpan s t := by
  obtain ⟨v, u, run, union, cleared⟩ := dispatch_value_run mem av shape sound user
  have first : sum.FirstOk := by
    intro pointer
    rw [pointer] at shape
    exact shape.elim
  have writes : sum.writes mem av = callerSavedSpan := by
    unfold Summary.writes
    cases hshape : sum.shape with
    | propPtr2ptr | invalid =>
      rw [hshape] at shape
      exact shape.elim
    | _ => rfl
  obtain ⟨-, sound', -, le⟩ := (dispatch_flow first).of_ok sound sound.within_univ run
  rw [writes] at le
  have outside : ∀ row ∉ callerSaved, ∀ b, Cell.reg row b ∉ callerSavedSpan := by
    rintro row hrow b ⟨row', mem', inside⟩
    exact hrow ((mem_regSpan.mp inside).1 ▸ mem')
  have memory : ∀ a, Cell.mem a ∉ callerSavedSpan := by
    rintro a ⟨row, -, inside⟩
    exact mem_not_mem_regSpan inside
  refine ⟨v, _, run, ⟨fun b hb => ?_, fun room l => ?_, fun b lo hi => ?_,
    fun row hrow ne b hb => ?_, fun row hrow b => le.frame _ (outside row hrow b),
    fun a => le.frame _ (memory a)⟩, cleared, sound', le⟩
  · grind [Shadow.returned]
  · rw [← mem_value]
    exact union room ▸ Iff.rfl
  · have rax : DFT_REG_RAX ∈ callerSaved := by decide
    grind [Shadow.returned]
  · grind [Shadow.returned]

/-- Two calls that return the same labels leave the same labels everywhere. -/
theorem Shadow.ReturnsValue.labelsOf_eq (h : s.ReturnsValue t v labels)
    (h' : s.ReturnsValue t' v' labels) (sound : s.Sound) (live : t.Sound) (live' : t'.Sound)
    (le : Shadow.Le callerSavedSpan s t) (le' : Shadow.Le callerSavedSpan s t') (room : t.InIds)
    (room' : t'.InIds) (c : Cell) : t.labelsOf c = t'.labelsOf c := by
  by_cases inside : c ∈ callerSavedSpan
  · obtain ⟨row, hrow, b, hb, rfl⟩ := inside
    rw [Nat.zero_add]
    by_cases value : row = DFT_REG_RAX ∧ b < 8
    · obtain ⟨rfl, low⟩ := value
      ext l
      rw [Shadow.labelsOf, Shadow.labelsOf, h.rax b low, h'.rax b low, h.labels room,
        h'.labels room']
    · have empty : ∀ {u w}, s.ReturnsValue u w labels → u.cell (.reg row b) = clearedVal := by
        intro u w returns
        by_cases rax : row = DFT_REG_RAX
        · subst rax
          exact returns.high b (by omega) hb
        · exact returns.clobbered row hrow rax b hb
      rw [(live.labelsOf_eq_empty _).mpr (empty h), (live'.labelsOf_eq_empty _).mpr (empty h')]
  · rw [le.labelsOf_eq sound inside, le'.labelsOf_eq sound inside]

end Values

/-- A summary with a value leaves one tag in RAX, the union of what it lists, empties the other
caller-saved registers and changes nothing else. A summary that lists the same indices leaves the
same labels. -/
theorem value_summary_returns {mem : AppMem} {av : ArgVals} {sum : Summary} {s : Shadow}
    (shape : sum.shape.HasValue) (sound : s.Sound)
    (user : sum.shape = .propPtr2val → sum.BuffersInRange mem av) :
    ∃ v t, dispatch mem av sum s = .ok (⟨⟩, t) ∧ s.ReturnsValue t v (sum.Gathers mem av s) ∧
      (sum.shape.Clobbers → v = clearedVal) ∧
      ∀ sum', sum.SameIndices sum' → ∃ t', dispatch mem av sum' s = .ok (⟨⟩, t') ∧
        (t.InIds → t'.InIds → ∀ c, t'.labelsOf c = t.labelsOf c) := by
  obtain ⟨v, t, run, returns, cleared, sound₁, le₁⟩ := dispatch_returnsValue shape sound user
  refine ⟨v, t, run, returns, cleared, fun sum' same => ?_⟩
  have shape' : sum'.shape.HasValue := same.shape ▸ shape
  have user' : sum'.shape = .propPtr2val → sum'.BuffersInRange mem av := by
    intro pointer i hi p hp h0
    have buffer := user (same.shape ▸ pointer) i ((same.src i).mp hi) p hp h0
    rwa [propLen, same.len]
  obtain ⟨v', t', run', returns', -, sound₂, le₂⟩ := dispatch_returnsValue shape' sound user'
  have gathers : sum'.Gathers mem av s = sum.Gathers mem av s :=
    funext fun l => propext same.gathers_iff
  rw [gathers] at returns'
  exact ⟨t', run', fun room room' c =>
    returns'.labelsOf_eq returns sound sound₂ sound₁ le₂ le₁ room' room c⟩

/-- `FUNC * sum2 PROP_PTR2VAL src=arg0,arg0,arg9 len=lit:2`. -/
def sumTwo : Summary where
  shape := .propPtr2val
  dst := ⟨.ret, 0⟩
  src := [0, 0, 9]
  len := ⟨.literal, 2⟩
  args := []

theorem sumTwo_room {t : Shadow} {u : PUnit}
    (run : dispatch noMem (fun _ => 0x1000) sumTwo (oneTainted 0x1000) = .ok (u, t)) : t.InIds := by
  have size : (dispatch noMem (fun _ => 0x1000) sumTwo (oneTainted 0x1000)).toOption.map
      (fun r => r.2.sets.gSets.length) = some 2 := rfl
  rw [run] at size
  have length : t.sets.gSets.length = 2 := Option.some.inj size
  rw [Shadow.InIds, length]
  decide

/-- A pointer to two bytes, the first of which has label 0: all of RAX carries that label, and RCX
is empty. -/
theorem value_summary_returns_two : ∃ t,
    dispatch noMem (fun _ => 0x1000) sumTwo (oneTainted 0x1000) = .ok (⟨⟩, t) ∧
      (∀ b < 8, t.labelsOf (.reg DFT_REG_RAX b) ≠ ∅) ∧
      ∀ b < TAGS_PER_GPR, t.cell (.reg DFT_REG_RCX b) = clearedVal := by
  have buffer : InRange 0x1000 2 := inRange_of_toNat_le (by decide)
  have user : sumTwo.BuffersInRange noMem fun _ => 0x1000 := by
    intro i hi p hp _
    have base : p = 0x1000 := by
      unfold argVal at hp
      split_ifs at hp
      exact (Option.some.inj hp).symm
    rw [base]
    exact buffer
  have shape : sumTwo.shape.HasValue := trivial
  obtain ⟨v, t, run, returns, -⟩ :=
    value_summary_returns shape (oneTainted_sound 0x1000) fun _ => user
  obtain ⟨l, hl⟩ := Finset.nonempty_iff_ne_empty.mpr (oneTainted_labelsOf (buffer 0 (by decide)))
  have gathered : sumTwo.Gathers noMem (fun _ => 0x1000) (oneTainted 0x1000) l :=
    ⟨0, by decide, 0x1000, rfl, by decide, 0, by decide, hl⟩
  refine ⟨t, run, fun b hb => ?_, returns.clobbered _ (by decide) (by decide)⟩
  rw [Shadow.labelsOf, returns.rax b hb]
  exact Finset.ne_empty_of_mem ((returns.labels (sumTwo_room run) l).mpr gathered)

/-- `FUNC * both PROP_PTR2VAL src=arg0 len=lit:2`. -/
def bothBytes : Summary where
  shape := .propPtr2val
  dst := ⟨.ret, 0⟩
  src := [0]
  len := ⟨.literal, 2⟩
  args := []

/-- When every id has been given out, the union of two tainted bytes gets the id of the empty
set: RAX is empty where the pointer leads to labels. -/
theorem value_summary_returns_nothing :
    ¬ ∀ (es : List Event) (s : Shadow) (mem : AppMem) (av : ArgVals) (sum : Summary),
      Run Step Shadow.new es s → sum.shape.HasValue →
      (sum.shape = .propPtr2val → sum.BuffersInRange mem av) →
      ∃ t, dispatch mem av sum s = .ok (⟨⟩, t) ∧
        ∀ b < 8, ∀ l, l ∈ t.labelsOf (.reg DFT_REG_RAX b) ↔ sum.Gathers mem av s l := by
  intro claim
  obtain ⟨s, painted, h⟩ := painted_run (2 ^ 32 - 1) (by omega)
  obtain ⟨s', clear, h'⟩ := h.clear (by omega)
  have run := painted.snoc clear
  obtain ⟨-, tb, -, -, union⟩ := h'.unite_two (by omega)
  have user : bothBytes.BuffersInRange noMem fun _ => 5 := by
    intro i hi p hp _
    obtain rfl := List.mem_singleton.mp hi
    obtain rfl : p = 5 := (Option.some.inj hp).symm
    exact inRange_of_toNat_le (by decide)
  have gathers : ptr2valTag noMem (fun _ => 5) bothBytes s' = .ok (clearedVal, s'.withSets tb) :=
    (bind_of_ok union).trans rfl
  have returned : dispatch noMem (fun _ => 5) bothBytes s' =
      .ok (⟨⟩, (s'.withSets tb).returned clearedVal) := by
    refine (bind_of_ok gathers).trans ?_
    rw [bind_of_ok (clobberCallerSaved_run _), raxSetAll_run]
    rfl
  obtain ⟨t, ok, labels⟩ := claim _ s' noMem (fun _ => 5) bothBytes run trivial fun _ => user
  obtain ⟨v, t', run', -, -, sound, -⟩ :=
    @dispatch_returnsValue noMem (fun _ => 5) bothBytes s' trivial (run_sound run) fun _ => user
  cases ok.symm.trans returned
  cases run'.symm.trans returned
  have empty : ((s'.withSets tb).returned clearedVal).labelsOf (.reg DFT_REG_RAX 0) = ∅ :=
    (sound.labelsOf_eq_empty _).mpr rfl
  have five : 5 ∈ s'.labelsOf (.mem (byteAt 5 0)) := (h'.cells _ 5).mpr ⟨by omega, by omega, rfl⟩
  have gathered : bothBytes.Gathers noMem (fun _ => 5) s' 5 :=
    ⟨0, List.mem_singleton_self 0, 5, rfl, by decide, 0, by decide, five⟩
  rw [← labels 0 (by omega), empty] at gathered
  exact absurd gathered (Finset.notMem_empty 5)

end LibdftDr
