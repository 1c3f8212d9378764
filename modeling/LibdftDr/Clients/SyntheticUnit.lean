import LibdftDr.Api.Clearing
import LibdftDr.Api.Ranges
import LibdftDr.Core.Plans
import LibdftDr.Machine.Labels
import LibdftDr.Sinks.TagTexts

/-!
# The in-process test of the tag model

The client `synthetic_unit` calls the tag interface when the application exits and counts which
expectations hold. It starts from whatever the run has left in the shadow.

`unit_tests_pass_iff` says for every run when all of them hold. Each test has its own lemma; the
tables after one are those the next one finds.
-/
namespace LibdftDr.SyntheticUnit
open Library Library.Action

/-- `to_string(t).find(sub) != std::string::npos`. -/
def contains (text sub : Text) : Bool := text.tails.any sub.isPrefixOf

/-- The counters of the visitor in T4. -/
structure Seen where
  seen42 : ℕ
  seen7 : ℕ
  count : ℕ
  deriving DecidableEq

def visit (l : UINT32) (c : Seen) : Bool × Seen :=
  (true,
    { count := c.count + 1
      seen42 := if l = 42 then 1 else c.seen42
      seen7 := if l = 7 then 1 else c.seen7 })

/-! ## The tests: the conditions of their expectations in order -/

/-- T1. -/
def testEmpty : Engine (List Bool) := do
  let tb ← tables
  pure [clearedVal.empty, clearedVal.toString tb == ['{', '}']]

/-- T2. -/
def testSingleton : Engine (Tag × List Bool) := do
  let a ← Api.makeTag 42
  let tb ← tables
  pure (a, [!a.empty, contains (a.toString tb) ['4', '2']])

/-- The tags that T3 makes. -/
structure Combined where
  b : Tag
  ab : Tag
  ba : Tag
  again : Tag
  right : Tag
  left : Tag

def combineAll (a : Tag) : Engine Combined := do
  let b ← Api.makeTag 7
  let ab ← Api.combine a b
  let ba ← Api.combine b a
  let again ← Api.combine ab ab
  let right ← Api.combine ab clearedVal
  let left ← Api.combine clearedVal ab
  pure ⟨b, ab, ba, again, right, left⟩

/-- T3. -/
def testCombine (a : Tag) : Engine (Combined × List Bool) := do
  let c ← combineAll a
  pure (c, [c.ab == c.ba, c.again == c.ab, c.right == c.ab, c.left == c.ab])

/-- T4. -/
def testEnumerate (ab : Tag) : Engine (List Bool) := do
  let tb ← tables
  let seen := ab.enumerate tb visit ⟨0, 0, 0⟩
  pure [seen.count == 2, seen.seen42 == 1, seen.seen7 == 1]

/-- The tags that T5 reads back. -/
structure ReadBack where
  first : Tag
  range : Tag
  cleared : Tag
  cleared4 : Tag

/-- `buf` is the client's own array of sixteen bytes. -/
def paintAndRead (buf : ADDRINT) (a b : Tag) : Engine ReadBack := do
  Api.setMemTag buf a
  let first ← Api.getMemTag buf
  Api.setMemTag (byteAt buf 4) b
  let range ← Api.getMemTagRange buf 8
  Api.clearMem buf 16
  let cleared ← Api.getMemTag buf
  let cleared4 ← Api.getMemTag (byteAt buf 4)
  pure ⟨first, range, cleared, cleared4⟩

/-- T5. -/
def testMemory (buf : ADDRINT) (a b ab : Tag) : Engine (List Bool) := do
  let r ← paintAndRead buf a b
  pure [r.first == a, r.range == ab, r.cleared.empty, r.cleared4.empty]

/-- The conditions of all expectations; `g_fail` counts those that do not hold. -/
def runUnitTests (buf : ADDRINT) : Engine (List Bool) := do
  let t1 ← testEmpty
  let (a, t2) ← testSingleton
  let (c, t3) ← testCombine a
  let t4 ← testEnumerate c.ab
  let t5 ← testMemory buf a c.b c.ab
  pure (t1 ++ t2 ++ t3 ++ t4 ++ t5)

/-! ## Tags and the sets they stand for -/

section Denotes

variable {tb : SetTable} {t u : Tag} {l k : Finset ℕ}

/-- While the table has ids, tags are equal when their sets are. -/
theorem eq_iff_of_denotes (ok : byLabels.Ok tb) (room : tb.gSets.length ≤ idSpace)
    (ht : byLabels.Denotes tb t l) (hu : byLabels.Denotes tb u k) : t = u ↔ l = k := by
  rw [(ok.2 room).eq_iff_setOf_eq ht.1 hu.1, ht.2 room, hu.2 room]

theorem empty_iff_of_denotes (ok : byLabels.Ok tb) (room : tb.gSets.length ≤ idSpace)
    (ht : byLabels.Denotes tb t l) : t.empty = true ↔ l = ∅ := by
  rw [← ht.2 room, ok.1.setOf_eq_empty ht.1, Tag.empty, beq_iff_eq, Tag.ext_iff]
  rfl

/-- The stored form of a set is determined by the set. -/
theorem stored_of_denotes (room : tb.gSets.length ≤ idSpace) (s : Ewah)
    (ht : byLabels.Denotes tb t s.toFinset) : tb.gSets[t.id.toNat]? = some s := by
  obtain ⟨e, he⟩ := SetTable.knows_iff.mp ht.1
  have same : e.toFinset = s.toFinset := (SetTable.setOf_eq he).symm.trans (ht.2 room)
  rw [he, Ascending.toFinset_injective same]

end Denotes

/-! ## One test -/

/-- `n` expectations, all of which hold if and only if `P`, as long as the table has ids. -/
structure Outcome (t : Shadow) (results : List Bool) (n : ℕ) (P : Prop) : Prop where
  length : results.length = n
  all : t.InIds → (results.all id = true ↔ P)

section Tests

variable {s t u : Shadow} {m : Cell → Finset ℕ} {a b ab : Tag} {results results' : List Bool}
  {n n' : ℕ} {P Q : Prop}

theorem Outcome.append (h : Outcome t results n P) (g : Outcome u results' n' Q)
    (grows : t.sets.Grows u.sets) : Outcome u (results ++ results') (n + n') (P ∧ Q) where
  length := by rw [List.length_append, h.length, g.length]
  all room := by
    rw [List.all_append, Bool.and_eq_true, h.all (grows.length_le.trans room), g.all room]

theorem testEmpty_run (s : Shadow) :
    ∃ results, testEmpty s = .ok (results, s) ∧ Outcome s results 2 True :=
  ⟨_, rfl, rfl, fun _ => iff_of_true rfl trivial⟩

theorem testSingleton_run (shows : byLabels.view.Shows s m) : ∃ a results t,
    testSingleton s = .ok ((a, results), t) ∧ byLabels.view.Shows t m ∧ s.sets.Grows t.sets ∧
      byLabels.Denotes t.sets a {42} ∧ Outcome t results 2 True := by
  have does : byLabels.Does ∅ m (fun a => {(a, {42})}) m (Api.makeTag 42) := setTag_does 42
  obtain ⟨a, t, run, shows', grows, denotes⟩ := does s shows (by simp)
  have set : byLabels.Denotes t.sets a {42} := denotes _ rfl
  refine ⟨a, _, t, (bind_of_ok run).trans rfl, shows', grows, set, rfl, fun room => ?_⟩
  have stored : t.sets.gSets[a.id.toNat]? = some (Ascending.singleton 42) :=
    stored_of_denotes room _ (by simpa using set)
  have nonempty : a.empty = false := by
    have := (empty_iff_of_denotes shows'.1 room set).not.mpr (by decide)
    simpa using this
  have text : a.toString t.sets = ['{', '4', '2', '}'] := by
    rw [Tag.toString, shows'.1.1.tagSprint_eq stored]
    decide
  rw [nonempty, text]
  decide

theorem combineAll_does {held : Set (Tag × Finset ℕ)} (ha : (a, {42}) ∈ held) :
    byLabels.Does held m (fun c => {(c.b, {7}), (c.ab, {42} ∪ {7}), (c.ba, {7} ∪ {42}),
      (c.again, ({42} ∪ {7}) ∪ ({42} ∪ {7})), (c.right, ({42} ∪ {7}) ∪ ∅),
      (c.left, ∅ ∪ ({42} ∪ {7}))}) m (combineAll a) := by
  refine Meaning.clearedVal_does ?_
  refine (setTag_does 7).bind fun b => ?_
  refine (Meaning.combine_does (.inl (.inl ha)) (.inr rfl)).bind fun ab => ?_
  refine (Meaning.combine_does (.inl (.inr rfl)) (.inl (.inl (.inl ha)))).bind fun ba => ?_
  refine (Meaning.combine_does (.inl (.inr rfl)) (.inl (.inr rfl))).bind fun again => ?_
  refine (Meaning.combine_does (b := ∅) (.inl (.inl (.inr rfl))) (by simp)).bind fun right => ?_
  refine (Meaning.combine_does (a := ∅) (by simp) (.inl (.inl (.inl (.inr rfl))))).bind
    fun left => View.Does.pure ?_
  rintro p (rfl | rfl | rfl | rfl | rfl | rfl) <;> simp

theorem testCombine_run (shows : byLabels.view.Shows s m)
    (ha : byLabels.Denotes s.sets a {42}) : ∃ c results t,
    testCombine a s = .ok ((c, results), t) ∧ byLabels.view.Shows t m ∧ s.sets.Grows t.sets ∧
      byLabels.Denotes t.sets c.b {7} ∧ byLabels.Denotes t.sets c.ab {42, 7} ∧
      Outcome t results 4 True := by
  have does : byLabels.Does {(a, {42})} m _ m (combineAll a) := combineAll_does rfl
  obtain ⟨c, t, run, shows', grows, denotes⟩ := does s shows (by rintro p rfl; exact ha)
  simp only [Set.mem_insert_iff, Set.mem_singleton_iff, forall_eq_or_imp, forall_eq] at denotes
  obtain ⟨b, ab, ba, again, right, left⟩ := denotes
  refine ⟨c, _, t, (bind_of_ok run).trans rfl, shows', grows, b, ab, rfl, fun room => ?_⟩
  have same : ∀ {u : Tag} {l : Finset ℕ}, byLabels.Denotes t.sets u l →
      (u = c.ab ↔ l = {42} ∪ {7}) := fun hu => eq_iff_of_denotes shows'.1 room hu ab
  rw [(same ba).mpr (by decide), (same again).mpr (by decide), (same right).mpr (by decide),
    (same left).mpr (by decide)]
  simp

theorem testEnumerate_run (ok : byLabels.Ok s.sets) (hab : byLabels.Denotes s.sets ab {42, 7}) :
    ∃ results, testEnumerate ab s = .ok (results, s) ∧ Outcome s results 3 True := by
  refine ⟨_, rfl, rfl, fun room => ?_⟩
  have stored : s.sets.gSets[ab.id.toNat]? =
      some ((Ascending.singleton 42).union (Ascending.singleton 7)) :=
    stored_of_denotes room _ (by simpa using hab)
  have nonzero : ab.id ≠ 0 := by
    intro zero
    have := (empty_iff_of_denotes ok room hab).mp (by simp [Tag.empty, zero])
    exact absurd this (by decide)
  have seen : ab.enumerate s.sets visit ⟨0, 0, 0⟩ = ⟨1, 1, 2⟩ := by
    rw [Tag.enumerate, tagWalk, if_neg nonzero, stored]
    decide
  rw [seen]
  decide

/-! ## The shadow memory -/

/-- Clearing a range as a function on what the cells denote. -/
theorem clrn_does {held : Set (Tag × Finset ℕ)} {m' : Cell → Finset ℕ} {addr : ADDRINT}
    {k : UINT32} (range : InRange addr k.toNat)
    (inside : ∀ i < k.toNat, m' (.mem (byteAt addr i)) = ∅)
    (outside : ∀ c ∉ memSpan addr k.toNat, m' c = m c) :
    byLabels.Does held m (fun _ => ∅) m' (clrn addr k) := by
  intro s shows _
  refine ⟨⟨⟩, _, rfl, ⟨shows.1, fun c => ?_⟩, SetTable.Grows.refl _, by simp⟩
  by_cases hc : c ∈ memSpan addr k.toNat
  · obtain ⟨i, hi, rfl⟩ := hc
    rw [clrn_empties s range hi, inside i hi]
    exact ⟨shows.1.1.knows_clearedVal, fun _ => shows.1.1.setOf_clearedVal⟩
  · rw [clrn_frame s range hc, outside c hc]
    exact shows.2 c

/-- What the bytes denote after the two writes. -/
def painted (buf : ADDRINT) (m : Cell → Finset ℕ) : Cell → Finset ℕ :=
  Function.update (Function.update m (.mem buf) {42}) (.mem (byteAt buf 4)) {7}

/-- And after the buffer is cleared. -/
def emptied (buf : ADDRINT) (m : Cell → Finset ℕ) (c : Cell) : Finset ℕ :=
  if c ∈ firstCells (memAt buf) 16 then ∅ else painted buf m c

variable {buf : ADDRINT}

theorem emptied_of_lt {i : ℕ} (hi : i < 16) : emptied buf m (.mem (byteAt buf i)) = ∅ :=
  if_pos (List.mem_map.mpr ⟨i, List.mem_range.mpr hi, rfl⟩)

theorem clearMem_does (range : InRange buf 16) {held : Set (Tag × Finset ℕ)} :
    byLabels.Does held (painted buf m) (fun _ => ∅) (emptied buf m) (Api.clearMem buf 16) := by
  refine clrn_does (k := 16) range (fun i hi => emptied_of_lt hi) fun c hc => if_neg fun mem => ?_
  obtain ⟨i, hi, rfl⟩ := List.mem_map.mp mem
  exact hc (mem_memSpan_self (List.mem_range.mp hi))

theorem paintAndRead_does (range : InRange buf 16) {held : Set (Tag × Finset ℕ)}
    (ha : (a, {42}) ∈ held) (hb : (b, {7}) ∈ held) :
    byLabels.Does held m (fun r => {(r.first, {42}),
        (r.range, allOf (fun i => .mem (byteAt buf i)) 8 (painted buf m)), (r.cleared, ∅),
        (r.cleared4, ∅)}) (emptied buf m) (paintAndRead buf a b) := by
  have zero : byteAt buf 0 = buf := BitVec.add_zero buf
  have start : buf ≤ lastAddress := zero ▸ range 0 (by decide)
  refine (Meaning.setb_does start ha).bind fun _ => ?_
  refine (Meaning.getb_does start).bind fun first => ?_
  refine (Meaning.setb_does (range 4 (by decide)) (.inl (.inl hb))).bind fun _ => ?_
  refine (Api.getMemTagRange_does fun i hi => range i (hi.trans (by decide))).bind fun all => ?_
  refine (clearMem_does range).bind fun _ => ?_
  refine (Meaning.getb_does start).bind fun cleared => ?_
  refine (Meaning.getb_does (range 4 (by decide))).bind fun cleared4 => View.Does.pure ?_
  have gone : emptied buf m (.mem buf) = ∅ := by
    have at0 : emptied buf m (.mem (byteAt buf 0)) = ∅ := emptied_of_lt (by decide)
    rwa [zero] at at0
  rintro p (rfl | rfl | rfl | rfl)
  · simp
  · simp [painted]
  · simp [gone]
  · simp [emptied_of_lt]

theorem byteAt_injOn (range : InRange buf 16) {i j : ℕ} (hi : i < 16) (hj : j < 16)
    (same : byteAt buf i = byteAt buf j) : i = j := by
  have value := congrArg BitVec.toNat same
  rw [range.successive i hi, range.successive j hj] at value
  omega

theorem painted_zero (range : InRange buf 16) :
    painted buf m (.mem (byteAt buf 0)) = {42} := by
  have zero : byteAt buf 0 = buf := BitVec.add_zero buf
  have ne : byteAt buf 0 ≠ byteAt buf 4 := fun e =>
    absurd (byteAt_injOn range (by decide) (by decide) e) (by decide)
  rw [zero] at ne ⊢
  simp [painted, ne]

theorem painted_four : painted buf m (.mem (byteAt buf 4)) = {7} := by
  simp [painted]

theorem painted_of_ne (range : InRange buf 16) {i : ℕ} (hi : i < 16) (h0 : i ≠ 0) (h4 : i ≠ 4) :
    painted buf m (.mem (byteAt buf i)) = m (.mem (byteAt buf i)) := by
  have zero : byteAt buf 0 = buf := BitVec.add_zero buf
  have ne0 : byteAt buf i ≠ buf := fun e =>
    h0 (byteAt_injOn range hi (by decide) (e.trans zero.symm))
  have ne4 : byteAt buf i ≠ byteAt buf 4 := fun e => h4 (byteAt_injOn range hi (by decide) e)
  simp [painted, ne0, ne4]

/-- The first eight bytes denote the two labels, and what else was there. -/
theorem allOf_painted (range : InRange buf 16) :
    allOf (fun i => .mem (byteAt buf i)) 8 (painted buf m) = {42} ∪ {7} ↔
      ∀ i < 8, i ≠ 0 → i ≠ 4 → m (.mem (byteAt buf i)) ⊆ {42, 7} := by
  have other : ∀ i < 8, i ≠ 0 → i ≠ 4 →
      painted buf m (.mem (byteAt buf i)) = m (.mem (byteAt buf i)) :=
    fun i hi => painted_of_ne range (hi.trans (by decide))
  constructor
  · intro whole i hi h0 h4 l hl
    have mem : l ∈ allOf (fun i => .mem (byteAt buf i)) 8 (painted buf m) :=
      Finset.mem_biUnion.mpr ⟨i, Finset.mem_range.mpr hi, (other i hi h0 h4).symm ▸ hl⟩
    rwa [whole] at mem
  · intro within
    ext l
    simp only [allOf, Finset.mem_biUnion, Finset.mem_range]
    constructor
    · rintro ⟨i, hi, hl⟩
      by_cases h0 : i = 0
      · rw [h0, painted_zero range] at hl
        exact Finset.mem_union_left _ hl
      · by_cases h4 : i = 4
        · rw [h4, painted_four] at hl
          exact Finset.mem_union_right _ hl
        · exact within i hi h0 h4 (other i hi h0 h4 ▸ hl)
    · intro hl
      obtain h | h := Finset.mem_union.mp hl
      · exact ⟨0, by decide, (painted_zero range).symm ▸ h⟩
      · exact ⟨4, by decide, painted_four.symm ▸ h⟩

theorem testMemory_run (range : InRange buf 16) (shows : byLabels.view.Shows s m)
    (ha : byLabels.Denotes s.sets a {42}) (hb : byLabels.Denotes s.sets b {7})
    (hab : byLabels.Denotes s.sets ab {42, 7}) : ∃ results t,
    testMemory buf a b ab s = .ok (results, t) ∧ s.sets.Grows t.sets ∧
      Outcome t results 4 (∀ i < 8, i ≠ 0 → i ≠ 4 → m (.mem (byteAt buf i)) ⊆ {42, 7}) := by
  have does : byLabels.Does {(a, {42}), (b, {7})} m _ _ (paintAndRead buf a b) :=
    paintAndRead_does range (.inl rfl) (.inr rfl)
  obtain ⟨r, t, run, shows', grows, denotes⟩ :=
    does s shows (by rintro p (rfl | rfl) <;> assumption)
  simp only [Set.mem_insert_iff, Set.mem_singleton_iff, forall_eq_or_imp, forall_eq] at denotes
  obtain ⟨first, all, cleared, cleared4⟩ := denotes
  refine ⟨_, t, (bind_of_ok run).trans rfl, grows, rfl, fun room => ?_⟩
  have ok := shows'.1
  have same := (eq_iff_of_denotes ok room first (byLabels.mono grows ha)).mpr rfl
  have union := (eq_iff_of_denotes ok room all (byLabels.mono grows hab)).trans
    (allOf_painted range)
  have gone := (empty_iff_of_denotes ok room cleared).mpr rfl
  have gone4 := (empty_iff_of_denotes ok room cleared4).mpr rfl
  rw [← union]
  simp [same, gone, gone4]

end Tests

/-- The client's tests never fault, whatever the run before them has done. While the table has
ids, all fifteen expectations hold if and only if the bytes of the buffer that T5 reads and does
not write carry no label but the two that it paints. -/
theorem unit_tests_pass_iff {es : List Event} {s : Shadow} {buf : ADDRINT}
    (run : Run Step Shadow.new es s) (range : InRange buf 16) :
    ∃ outcomes t, runUnitTests buf s = .ok (outcomes, t) ∧ outcomes.length = 15 ∧
      (t.InIds → (outcomes.all id = true ↔
        ∀ i < 8, i ≠ 0 → i ≠ 4 → s.labelsOf (.mem (byteAt buf i)) ⊆ {42, 7})) := by
  have shows := (run_sound run).shows_labelsOf
  obtain ⟨r1, run1, t1⟩ := testEmpty_run s
  obtain ⟨a, r2, s2, run2, shows2, grows2, ha, t2⟩ := testSingleton_run shows
  obtain ⟨c, r3, s3, run3, shows3, grows3, hb, hab, t3⟩ := testCombine_run shows2 ha
  obtain ⟨r4, run4, t4⟩ := testEnumerate_run shows3.1 hab
  obtain ⟨r5, s5, run5, grows5, t5⟩ :=
    testMemory_run range shows3 (byLabels.mono grows3 ha) hb hab
  have all := (((t1.append t2 grows2).append t3 grows3).append t4 (.refl _)).append t5 grows5
  refine ⟨_, s5, ?_, all.length, fun room => ?_⟩
  · rw [runUnitTests, bind_of_ok run1, bind_of_ok run2]
    dsimp only
    rw [bind_of_ok run3]
    dsimp only
    rw [bind_of_ok run4, bind_of_ok run5]
    rfl
  · simpa only [true_and] using all.all room

/-- The buffer painted with a label of the tests, or with another one. -/
def paintBuffer (label : UINT32) : Event := .call (.paintRange 0x1000 16 label)

/-- In a process that has done nothing else the tests pass, and so they do on a buffer that was
painted with 42. Painted with 43, the buffer shows in T5. -/
theorem unit_tests_pass_iff_new :
    (∃ outcomes t, runUnitTests 0x1000 Shadow.new = .ok (outcomes, t) ∧ outcomes.all id = true) ∧
    (∃ outcomes t, runUnitTests 0x1000 ((paintBuffer 42).after Shadow.new) = .ok (outcomes, t) ∧
      outcomes.all id = true) ∧
    ∃ outcomes t, runUnitTests 0x1000 ((paintBuffer 43).after Shadow.new) = .ok (outcomes, t) ∧
      outcomes.all id = false := by
  have range : InRange 0x1000 16 := by
    rw [InRange]
    decide
  have few : ∀ {s t : Shadow} {outcomes}, runUnitTests 0x1000 s = .ok (outcomes, t) →
      ((runUnitTests 0x1000 s).toOption.map fun r => decide (r.2.sets.gSets.length ≤ 8)) =
        some true → t.InIds := by
    intro s t outcomes run short
    rw [run] at short
    have length : t.sets.gSets.length ≤ 8 := of_decide_eq_true (Option.some.inj short)
    exact length.trans (by decide)
  have run42 : Run Step Shadow.new [paintBuffer 42] ((paintBuffer 42).after Shadow.new) :=
    .cons (Event.step_after trivial rfl (by decide +kernel)) .nil
  have run43 : Run Step Shadow.new [paintBuffer 43] ((paintBuffer 43).after Shadow.new) :=
    .cons (Event.step_after trivial rfl (by decide +kernel)) .nil
  refine ⟨?_, ?_, ?_⟩
  · obtain ⟨outcomes, t, run, -, pass⟩ := unit_tests_pass_iff .nil range
    refine ⟨outcomes, t, run, (pass (few run (by decide +kernel))).mpr fun i _ _ _ => ?_⟩
    have clean : Shadow.new.cell (.mem (byteAt 0x1000 i)) = clearedVal := TagDir.tagAt_new _
    rw [(Shadow.new_sound.labelsOf_eq_empty _).mpr clean]
    exact Finset.empty_subset _
  · obtain ⟨outcomes, t, run, -, pass⟩ := unit_tests_pass_iff run42 range
    refine ⟨outcomes, t, run, (pass (few run (by decide +kernel))).mpr ?_⟩
    decide +kernel
  · obtain ⟨outcomes, t, run, -, pass⟩ := unit_tests_pass_iff run43 range
    refine ⟨outcomes, t, run, Bool.eq_false_iff.mpr fun all => ?_⟩
    have bytes := (pass (few run (by decide +kernel))).mp all
    revert bytes
    decide +kernel

end LibdftDr.SyntheticUnit
