import LibdftDr.Machine.Events

/-!
# Where labels come from

Labels enter the shadow at the source hooks, `paint_range` and the set calls. Handlers and
summaries move them: what is held anywhere afterwards was held somewhere before. This needs an
id for every label set, so it is a property of runs that intern at most `2 ^ 32` sets;
past that, ids are used again.
-/
namespace LibdftDr
open Library Library.Action

/-- The hooks after a read or a mapping, `paint_range` and the calls that set a tag. -/
def Event.IsSource : Event → Prop
  | .hook _ _ _ .read | .hook _ _ _ .pread64 | .hook _ _ _ (.mmap _) => True
  | .call (.paintRange ..) | .call (.setMemTag ..) | .call (.setRegTag ..)
  | .call (.setRegTagByte ..) => True
  | _ => False

/-- What a source brings in: the file offsets or the label it paints, or the labels of the
handle it is given. -/
def Event.brings (s : Shadow) (e : Event) : Set ℕ := {l | e.IsSource ∧ l ∈ e.labels ∪ e.tagLabels s}

section Steps

variable {s t : Shadow} {e : Event}

/-- An event that is no source is given no label, or changes no cell. -/
theorem Event.writes_of_not_source (h : ¬ e.IsSource) :
    e.labels ∪ e.tagLabels s = ∅ ∨ e.writes = ∅ := by
  cases e with
  | handler => exact .inl (by simp [labels, tagLabels, tags])
  | summary => exact .inl (by simp [labels, tagLabels, tags])
  | hook os fdset ctx p =>
    cases p with
    | read | pread64 | mmap => exact absurd trivial h
    | munmap | cleanup =>
      exact .inl (by simp [labels, tagLabels, tags, PostHook.labels, PostHook.paints])
  | call c =>
    cases c with
    | paintRange | setMemTag | setRegTag | setRegTagByte => exact absurd trivial h
    | makeTag | combine => exact .inr rfl
    | _ => exact .inl (by simp [labels, tagLabels, tags, Api.Call.labels, Api.Call.tags])

/-- When no cell changes, neither do the labels held. -/
theorem Shadow.Le.labels_subset (le : Shadow.Le ∅ s t) (sound : s.Sound) : t.labels ⊆ s.labels := by
  rintro l ⟨c, hl⟩
  rw [le.frame c (Set.notMem_empty c), le.grows.setOf (sound.known c)] at hl
  exact ⟨c, hl⟩

/-- A step adds to the labels held what its event brings in, and nothing else. -/
theorem Step.labels_subset (step : Step s e t) (sound : s.Sound)
    (room : t.sets.gSets.length ≤ idSpace) : t.labels ⊆ s.labels ∪ e.brings s := by
  obtain ⟨-, within, le⟩ := step.conclusions sound
  have bound := within.labels_subset room
  by_cases h : e.IsSource
  · exact bound.trans (Set.union_subset_union_right _ fun l hl => ⟨h, hl⟩)
  · obtain none | fixed := e.writes_of_not_source (s := s) h
    · rw [none, Set.union_empty] at bound
      exact bound.trans Set.subset_union_left
    · rw [fixed] at le
      exact (le.labels_subset sound).trans Set.subset_union_left

end Steps

/-- Labels enter at sources: every step of a run changes its own cells only, and in a run that
interns at most `2 ^ 32` sets a step that is not a source holds no label that was not held
before, and a source adds what it is given. -/
theorem labels_enter_at_sources {es : List Event} {s t : Shadow} {e : Event}
    (run : Run Step Shadow.new es s) (step : Step s e t) :
    (∀ c ∉ e.writes, t.cell c = s.cell c) ∧
      (t.sets.gSets.length ≤ 2 ^ 32 →
        (¬ e.IsSource → t.labels ⊆ s.labels) ∧ t.labels ⊆ s.labels ∪ e.brings s) := by
  have sound := run_sound run
  refine ⟨(step.conclusions sound).2.2.frame, fun few => ?_⟩
  have adds := step.labels_subset sound few
  refine ⟨fun h => ?_, adds⟩
  have none : e.brings s = ∅ := Set.eq_empty_of_forall_notMem fun l hl => h hl.1
  rwa [none, Set.union_empty] at adds

/-! ## Ids are used again -/

section Interning

variable {tb : SetTable} {u : Ewah} {l r : Tag} {a b : Ewah}

theorem SetTable.Exact.fresh_of_not_mem (h : tb.Exact) (hu : u ∉ tb.gSets) :
    tb.gIntern (ewahSprint u) = none := by
  cases found : tb.gIntern (ewahSprint u) with
  | none => rfl
  | some id => exact absurd (List.mem_of_getElem? (h.interned.hit ewahSprint_injective found)) hu

/-- The id of a new set is the length of the table in 32 bits. -/
theorem internSet_of_fresh (fresh : tb.gIntern (ewahSprint u) = none) :
    internSet u tb = (BitVec.ofNat 32 tb.gSets.length,
      { tb with
        gSets := tb.gSets ++ [u]
        gIntern := Function.update tb.gIntern (ewahSprint u)
          (some (BitVec.ofNat 32 tb.gSets.length)) }) := by
  simp [internSet, fresh]

/-- What a union of two stored sets that is new leaves behind. -/
theorem tagCombine_of_fresh (hl : tb.gSets[l.id.toNat]? = some a)
    (hr : tb.gSets[r.id.toNat]? = some b) (ne : l ≠ r) (l0 : l ≠ clearedVal) (r0 : r ≠ clearedVal)
    (memo : tb.gCombine (combineKey l.id r.id) = none)
    (fresh : tb.gIntern (ewahSprint (a.logicalor b)) = none) :
    ∃ tb', tagCombine l r tb = .ok (⟨BitVec.ofNat 32 tb.gSets.length⟩, tb') ∧
      tb'.gSets = tb.gSets ++ [a.logicalor b] ∧
      (∀ k, k ≠ ewahSprint (a.logicalor b) → tb'.gIntern k = tb.gIntern k) ∧
      ∀ k, k ≠ combineKey l.id r.id → k ≠ combineKey r.id l.id →
        tb'.gCombine k = tb.gCombine k := by
  have ids : l.id ≠ r.id ∧ l.id ≠ 0 ∧ r.id ≠ 0 :=
    ⟨fun e => ne (Tag.ext e), fun e => l0 (Tag.ext e), fun e => r0 (Tag.ext e)⟩
  simp only [tagCombine, ids.1, ids.2.1, ids.2.2, if_false, memo, hl, hr, internSet_of_fresh fresh]
  refine ⟨_, rfl, rfl, fun k hk => Function.update_of_ne hk _ _, fun k hkl hkr => ?_⟩
  simp only [Function.update_of_ne hkl, Function.update_of_ne hkr]

end Interning

theorem loop_one {body : ℕ → Engine PUnit} : loop 1 body = body 0 := by
  simp [loop, fold]

/-- Label `i` is painted on byte `i` of memory. -/
def paintByte (i : ℕ) : Event := .call (.paintRange (BitVec.ofNat 64 i) 1 (BitVec.ofNat 32 i))

/-- After the first `k` labels: each has the next id, and is held by its own byte alone. -/
structure Painted (k : ℕ) (s : Shadow) : Prop where
  sound : s.Sound
  sets : s.sets.gSets = Ascending.empty :: (List.range k).map Ascending.singleton
  memo : s.sets.gCombine = fun _ => none
  cells : ∀ c l, l ∈ s.sets.setOf (s.cell c) ↔ l < k ∧ c = .mem (BitVec.ofNat 64 l)

section Painted

variable {k : ℕ} {s : Shadow}

theorem Painted.length (h : Painted k s) : s.sets.gSets.length = k + 1 := by simp [h.sets]

theorem new_painted : Painted 0 Shadow.new where
  sound := Shadow.new_sound
  sets := rfl
  memo := rfl
  cells c l := by
    have cell : Shadow.new.cell c = clearedVal := by
      cases c with
      | reg r b => rfl
      | mem a => exact TagDir.tagAt_new a
    rw [cell]
    change l ∈ tagmapAlloc.setOf clearedVal ↔ _
    simp [SetTable.tagmapAlloc_exact.setOf_clearedVal]

theorem ofNat_inj {i j : ℕ} (hi : i < 2 ^ 32) (hj : j < 2 ^ 32) :
    BitVec.ofNat 64 i = BitVec.ofNat 64 j ↔ i = j := by
  refine ⟨fun h => ?_, fun h => by rw [h]⟩
  have := congrArg BitVec.toNat h
  simp only [BitVec.toNat_ofNat] at this
  omega

theorem ofNat_le_lastAddress {i : ℕ} (hi : i < 2 ^ 32) : BitVec.ofNat 64 i ≤ lastAddress := by
  rw [BitVec.le_def, BitVec.toNat_ofNat]
  change i % 2 ^ 64 ≤ 0x7fffffffffff
  omega

theorem singleton_inj {i j : ℕ} :
    (Ascending.singleton i : Ewah) = Ascending.singleton j ↔ i = j := by
  refine ⟨fun h => ?_, fun h => by rw [h]⟩
  simpa [Ascending.singleton] using h

theorem singleton_ne_empty (i : ℕ) : (Ascending.singleton i : Ewah) ≠ Ascending.empty := by
  simp [Ascending.singleton, Ascending.empty]

/-- One more label: a new singleton gets the next id, in 32 bits. -/
theorem Painted.set_tag (h : Painted k s) (small : k < 2 ^ 32) :
    ∃ tb, Tag.set (BitVec.ofNat 32 k) s.sets = (⟨BitVec.ofNat 32 (k + 1)⟩, tb) ∧
      tb.gSets = s.sets.gSets ++ [Ascending.singleton k] ∧ tb.gCombine = s.sets.gCombine := by
  have exact' : s.sets.Exact := h.sound.exact (by rw [h.length, idSpace]; omega)
  have label : Ewah.set (BitVec.ofNat 32 k) = Ascending.singleton k := by
    rw [Ewah.set, BitVec.toNat_ofNat, Nat.mod_eq_of_lt small]
  have new : Ascending.singleton k ∉ s.sets.gSets := by
    rw [h.sets]
    simp [singleton_ne_empty, singleton_inj]
  have fresh := internSet_of_fresh (exact'.fresh_of_not_mem new)
  rw [h.length] at fresh
  obtain ⟨v, tb, set⟩ : ∃ v tb, Tag.set (BitVec.ofNat 32 k) s.sets = (v, tb) := ⟨_, _, rfl⟩
  have result := set
  rw [Tag.set, label, fresh] at result
  cases result
  exact ⟨_, set, rfl, rfl⟩

/-- It stands for the label while there are ids. -/
theorem Painted.fresh_tag (h : Painted k s) (room : k + 2 ≤ 2 ^ 32) :
    ∃ v tb, Tag.set (BitVec.ofNat 32 k) s.sets = (v, tb) ∧
      tb.gSets = s.sets.gSets ++ [Ascending.singleton k] ∧ tb.gCombine = s.sets.gCombine ∧
      tb.setOf v = {k} := by
  obtain ⟨tb, set, sets, memo⟩ := h.set_tag (by omega)
  have exact' : s.sets.Exact := h.sound.exact (by rw [h.length, idSpace]; omega)
  refine ⟨_, tb, set, sets, memo, ?_⟩
  have denotes := (SetTable.tagSet_exact exact' (BitVec.ofNat 32 k) (by
    rw [set, sets, List.length_append, h.length, idSpace, List.length_singleton]
    omega)).2
  rwa [set, BitVec.toNat_ofNat, Nat.mod_eq_of_lt (by omega)] at denotes

/-- Painting one byte makes a tag and writes it. -/
theorem run_paintByte {v : Tag} {tb : SetTable} {t : Shadow}
    (set : Tag.set (BitVec.ofNat 32 k) s.sets = (v, tb))
    (write : setb (BitVec.ofNat 64 k) v (s.withSets tb) = .ok (⟨⟩, t)) :
    (paintByte k).run s = .ok (.returned, t) := by
  have paint : setTag (BitVec.ofNat 32 k) s = .ok (v, s.withSets tb) := by rw [setTag, set]
  have body : Api.paintRange (BitVec.ofNat 64 k) 1 (BitVec.ofNat 32 k) s = .ok (⟨⟩, t) := by
    rw [Api.paintRange, show (1 : UINT64).toNat = 1 from rfl, loop_one, bind_of_ok paint,
      byteAt_zero]
    exact write
  rw [paintByte, Event.run, Api.Call.run, bind_of_ok (bind_of_ok body)]
  rfl

/-- One byte holds the new label. -/
theorem Painted.step (h : Painted k s) (room : k + 2 ≤ 2 ^ 32) :
    ∃ t, Step s (paintByte k) t ∧ Painted (k + 1) t := by
  obtain ⟨v, tb, set, sets, memo, denotes⟩ := h.fresh_tag room
  obtain ⟨t, write⟩ : ∃ t, setb (BitVec.ofNat 64 k) v (s.withSets tb) = .ok (⟨⟩, t) := ⟨_, rfl⟩
  have step : Step s (paintByte k) t :=
    ⟨trivial, by simp [paintByte, Event.tags, Api.Call.tags], run_paintByte set write⟩
  obtain ⟨table, cells⟩ := Shadow.cell_setb write
  refine ⟨t, step, (step.conclusions h.sound).1, ?_, ?_, fun c l => ?_⟩
  · rw [table]
    simp [Shadow.withSets, sets, h.sets, List.range_succ]
  · rw [table]
    exact memo.trans h.memo
  · have grows : s.sets.Grows tb := ⟨_, sets.symm⟩
    have old : tb.setOf (s.cell c) = s.sets.setOf (s.cell c) := grows.setOf (h.sound.known c)
    rw [table, cells, Shadow.cell_withSets]
    change l ∈ tb.setOf _ ↔ _
    by_cases hc : c = .mem (BitVec.ofNat 64 k)
    · rw [if_pos ⟨hc, ofNat_le_lastAddress (by omega)⟩, denotes, Finset.mem_singleton, hc,
        Cell.mem.injEq]
      constructor
      · rintro rfl
        exact ⟨by omega, rfl⟩
      · rintro ⟨hl, e⟩
        exact ((ofNat_inj (by omega) (by omega)).mp e).symm
    · rw [if_neg fun both => hc both.1, old, h.cells]
      refine and_congr_left fun hl => ⟨fun lt => by omega, fun lt => ?_⟩
      have : l ≠ k := fun e => hc (e ▸ hl)
      omega

/-- The labels below `k` are painted one after the other. -/
theorem painted_run (k : ℕ) (room : k + 1 ≤ 2 ^ 32) :
    ∃ s, Run Step Shadow.new ((List.range k).map paintByte) s ∧ Painted k s := by
  induction k with
  | zero => exact ⟨_, .nil, new_painted⟩
  | succ k ih =>
    obtain ⟨s, run, painted⟩ := ih (by omega)
    obtain ⟨t, step, painted'⟩ := painted.step (by omega)
    refine ⟨t, ?_, painted'⟩
    rw [List.range_succ, List.map_append]
    exact run.snoc step

/-- `clear_mem` of the byte that holds label 0. -/
def clearFirst : Event := .call (.clearMem 0 1)

/-- Label 0 is held nowhere; the other labels still are. -/
structure Cleared (k : ℕ) (s : Shadow) : Prop where
  exact : s.sets.Exact
  known : ∀ c, s.sets.Knows (s.cell c)
  sets : s.sets.gSets = Ascending.empty :: (List.range k).map Ascending.singleton
  memo : s.sets.gCombine = fun _ => none
  cells : ∀ c l, l ∈ s.sets.setOf (s.cell c) ↔ 0 < l ∧ l < k ∧ c = .mem (BitVec.ofNat 64 l)

theorem Painted.clear (h : Painted k s) (room : k + 1 ≤ 2 ^ 32) :
    ∃ t, Step s clearFirst t ∧ Cleared k t := by
  have exact' : s.sets.Exact := h.sound.exact (by rw [h.length]; exact room)
  obtain ⟨t, run⟩ : ∃ t, clrn 0 1 s = .ok (⟨⟩, t) := ⟨_, rfl⟩
  have step : Step s clearFirst t := by
    refine ⟨trivial, by simp [clearFirst, Event.tags, Api.Call.tags], ?_⟩
    have body : Api.clearMem 0 1 s = .ok (⟨⟩, t) := run
    rw [clearFirst, Event.run, Api.Call.run, bind_of_ok (bind_of_ok body)]
    rfl
  obtain ⟨table, -, frame⟩ := Shadow.cell_clrn run
  have first : t.cell (.mem 0) = clearedVal := by
    cases run
    simp [Shadow.cell, Shadow.withTagDir, TagDir.clrn_tagAt]
  refine ⟨t, step, table ▸ exact', (step.conclusions h.sound).1.known, table ▸ h.sets,
    table ▸ h.memo, fun c l => ?_⟩
  rw [table]
  by_cases hc : c = .mem 0
  · subst hc
    rw [first, exact'.setOf_clearedVal]
    refine iff_of_false (Finset.notMem_empty l) ?_
    rintro ⟨pos, lt, e⟩
    have zero : 0 = l := (ofNat_inj (Nat.two_pow_pos 32) (by omega)).mp (Cell.mem.inj e)
    omega
  · have outside : c ∉ memSpan 0 (1 : UINT32).toNat := by
      rintro ⟨i, hi, rfl⟩
      obtain rfl : i = 0 := Nat.lt_one_iff.mp hi
      exact hc (by rw [byteAt_zero])
    rw [frame c outside, h.cells]
    constructor
    · rintro ⟨lt, rfl⟩
      refine ⟨Nat.pos_of_ne_zero fun e => hc ?_, lt, rfl⟩
      rw [e]
      rfl
    · exact fun g => g.2

/-- Shifting a four-byte memory operand at address 5. -/
def shiftFour : Event := .handler ⟨fun _ => none, 0⟩ 0 (.shiftM 5 4)

/-- The tag of a byte whose label was kept. -/
theorem Cleared.stored (h : Cleared k s) {i : ℕ} (pos : 0 < i) (lt : i < k) (small : k < 2 ^ 32) :
    ∃ v, (∀ tb, getb (BitVec.ofNat 64 i) (s.withSets tb) = .ok (v, s.withSets tb)) ∧
      s.sets.gSets[v.id.toNat]? = some (Ascending.singleton i) ∧ v ≠ clearedVal := by
  let v := s.cell (.mem (BitVec.ofNat 64 i))
  obtain ⟨e, he⟩ := SetTable.knows_iff.mp (h.known (.mem (BitVec.ofNat 64 i)))
  have denotes : s.sets.setOf v = {i} := by
    ext l
    rw [h.cells, Finset.mem_singleton, Cell.mem.injEq]
    constructor
    · rintro ⟨-, hl, same⟩
      exact ((ofNat_inj (by omega) (by omega)).mp same).symm
    · rintro rfl
      exact ⟨pos, lt, rfl⟩
  have single : e = Ascending.singleton i := by
    rw [SetTable.setOf_eq he] at denotes
    exact Ascending.toFinset_injective (by simpa using denotes)
  refine ⟨v, fun tb => getb_of_le (ofNat_le_lastAddress (by omega)) _, single ▸ he, fun zero => ?_⟩
  rw [zero, h.exact.setOf_clearedVal] at denotes
  exact absurd denotes.symm (Finset.singleton_ne_empty i)

/-- A loop that writes one tag changes no set. -/
theorem setb_loop (addr : ADDRINT) (v : Tag) (n : ℕ) (s : Shadow) :
    ∃ t, loop n (fun i => setb (byteAt addr i) v) s = .ok (⟨⟩, t) ∧ t.sets = s.sets := by
  induction n with
  | zero => exact ⟨s, rfl, rfl⟩
  | succ n ih =>
    obtain ⟨t, run, sets⟩ := ih
    obtain ⟨u, write⟩ : ∃ u, setb (byteAt addr n) v t = .ok (⟨⟩, u) := ⟨_, rfl⟩
    exact ⟨u, (bind_of_ok run).trans write, (Shadow.cell_setb write).1.trans sets⟩

/-- The union of two labels as `tag_combine` computes it. -/
def pair (i j : ℕ) : Ewah := Ewah.logicalor (Ascending.singleton i) (Ascending.singleton j)

theorem Cleared.pair_new (h : Cleared k s) {i j : ℕ} (hij : i ≠ j) : pair i j ∉ s.sets.gSets := by
  intro hmem
  have union : (pair i j).toFinset = {i, j} := by
    ext l
    simp [pair, Ewah.logicalor]
  have both : i ∈ (pair i j).toFinset ∧ j ∈ (pair i j).toFinset := by simp [union]
  rw [h.sets, List.mem_cons, List.mem_map] at hmem
  obtain empty | ⟨m, -, single⟩ := hmem
  · simp [empty] at both
  · simp only [← single, Ascending.toFinset_singleton, Finset.mem_singleton] at both
    exact hij (both.1.trans both.2.symm)

/-- Two unions that are new, when the table is as long as there are ids: the first gets id 0,
which is that of the empty set, the second gets id 1, which is that of label 0. -/
theorem Cleared.unions (h : Cleared k s) (full : k + 1 = 2 ^ 32) {v5 v6 v7 v8 : Tag}
    (set5 : s.sets.gSets[v5.id.toNat]? = some (Ascending.singleton 5)) (ne5 : v5 ≠ clearedVal)
    (set6 : s.sets.gSets[v6.id.toNat]? = some (Ascending.singleton 6)) (ne6 : v6 ≠ clearedVal)
    (set7 : s.sets.gSets[v7.id.toNat]? = some (Ascending.singleton 7)) (ne7 : v7 ≠ clearedVal)
    (set8 : s.sets.gSets[v8.id.toNat]? = some (Ascending.singleton 8)) (ne8 : v8 ≠ clearedVal) :
    ∃ tb tb', tagCombine v5 v6 s.sets = .ok (clearedVal, tb) ∧
      tagCombine v7 v8 tb = .ok (⟨1⟩, tb') ∧ tb'.setOf ⟨1⟩ = {0} := by
  have length : s.sets.gSets.length = 2 ^ 32 := by simp [h.sets, full]
  have differ : ∀ {v w : Tag} {i j : ℕ}, s.sets.gSets[v.id.toNat]? = some (Ascending.singleton i) →
      s.sets.gSets[w.id.toNat]? = some (Ascending.singleton j) → i ≠ j → v ≠ w := by
    rintro v w i j hv hw hij rfl
    exact hij (singleton_inj.mp (Option.some.inj (hv.symm.trans hw)))
  obtain ⟨tb, combine56, sets, intern, memo⟩ := tagCombine_of_fresh set5 set6
    (differ set5 set6 (by decide)) ne5 ne6 (by rw [h.memo])
    (h.exact.fresh_of_not_mem (h.pair_new (by decide : 5 ≠ 6)))
  have grows : s.sets.gSets <+: tb.gSets := ⟨_, sets.symm⟩
  -- neither table knows the second pair
  have key78 : ewahSprint (pair 7 8) ≠ ewahSprint (pair 5 6) := fun e =>
    absurd (ewahSprint_injective e) (by decide)
  have memo78 : tb.gCombine (combineKey v7.id v8.id) = none := by
    rw [memo, h.memo]
    · exact fun e => differ set7 set5 (by decide) (Tag.ext (combineKey_injective e).1)
    · exact fun e => differ set7 set6 (by decide) (Tag.ext (combineKey_injective e).1)
  obtain ⟨tb', combine78, sets', -, -⟩ := tagCombine_of_fresh (getElem?_of_le grows set7)
    (getElem?_of_le grows set8) (differ set7 set8 (by decide)) ne7 ne8 memo78
    ((intern _ key78).trans (h.exact.fresh_of_not_mem (h.pair_new (by decide : 7 ≠ 8))))
  have zero : (⟨BitVec.ofNat 32 s.sets.gSets.length⟩ : Tag) = clearedVal := by
    rw [length]; rfl
  have one : (⟨BitVec.ofNat 32 tb.gSets.length⟩ : Tag) = ⟨1⟩ := by
    rw [sets, List.length_append, length]; rfl
  refine ⟨tb, tb', zero ▸ combine56, one ▸ combine78, ?_⟩
  have first : s.sets.gSets[1]? = some (Ascending.singleton 0) := by
    rw [h.sets, List.getElem?_cons_succ, List.getElem?_map, List.getElem?_range (by omega)]
    rfl
  have kept : tb'.gSets[1]? = some (Ascending.singleton 0) :=
    getElem?_of_le ⟨_, sets'.symm⟩ (getElem?_of_le grows first)
  rw [SetTable.setOf_eq (t := ⟨1⟩) kept, Ascending.toFinset_singleton]

theorem tagCombine_clearedVal (v : Tag) (tb : SetTable) :
    tagCombine clearedVal v tb = .ok (v, tb) := by
  unfold tagCombine
  split_ifs with same zero
  · rw [Tag.ext same]
  · rfl
  · exact absurd rfl zero
  · exact absurd rfl zero

/-- One more byte of a union. -/
theorem unite_succ {n : ℕ} {src : ℕ → Engine Tag} {u v w x : Tag} {s t : Shadow} {tb : SetTable}
    (before : unite n src u s = .ok (v, t)) (next : src n t = .ok (w, t))
    (union : tagCombine v w t.sets = .ok (x, tb)) :
    unite (n + 1) src u s = .ok (x, t.withSets tb) :=
  (bind_of_ok before).trans ((bind_of_ok next).trans (combine_run union))

/-- The union of bytes 5 and 6 alone is forgotten. -/
theorem Cleared.unite_two (h : Cleared k s) (full : k + 1 = 2 ^ 32) :
    ∃ v5 tb, v5 ≠ clearedVal ∧ getb 5 s = .ok (v5, s) ∧
      unite 2 (fun i => getb (byteAt 5 i)) clearedVal s = .ok (clearedVal, s.withSets tb) := by
  obtain ⟨v5, get5, set5, ne5⟩ := h.stored (i := 5) (by omega) (by omega) (by omega)
  obtain ⟨v6, get6, set6, ne6⟩ := h.stored (i := 6) (by omega) (by omega) (by omega)
  obtain ⟨v7, get7, set7, ne7⟩ := h.stored (i := 7) (by omega) (by omega) (by omega)
  obtain ⟨v8, get8, set8, ne8⟩ := h.stored (i := 8) (by omega) (by omega) (by omega)
  obtain ⟨tb, -, combine56, -⟩ := h.unions full set5 ne5 set6 ne6 set7 ne7 set8 ne8
  have one : unite 1 (fun i => getb (byteAt 5 i)) clearedVal s = .ok (v5, s) :=
    unite_succ rfl (get5 s.sets) (tagCombine_clearedVal v5 s.sets)
  exact ⟨v5, tb, ne5, get5 s.sets, unite_succ one (get6 s.sets) combine56⟩

/-- The shift unites the four bytes in order: 5 with 6 is forgotten, 7 with 8 reads as label 0. -/
theorem Cleared.shift (h : Cleared k s) (full : k + 1 = 2 ^ 32) :
    ∃ t, shiftFour.run s = .ok (.returned, t) ∧ 0 ∈ t.labels := by
  obtain ⟨v5, get5, set5, ne5⟩ := h.stored (i := 5) (by omega) (by omega) (by omega)
  obtain ⟨v6, get6, set6, ne6⟩ := h.stored (i := 6) (by omega) (by omega) (by omega)
  obtain ⟨v7, get7, set7, ne7⟩ := h.stored (i := 7) (by omega) (by omega) (by omega)
  obtain ⟨v8, get8, set8, ne8⟩ := h.stored (i := 8) (by omega) (by omega) (by omega)
  obtain ⟨tb, tb', combine56, combine78, zero⟩ := h.unions full set5 ne5 set6 ne6 set7 ne7 set8 ne8
  have one : unite 1 (fun i => getb (byteAt 5 (1 + i))) v5 s = .ok (clearedVal, s.withSets tb) :=
    unite_succ rfl (get6 s.sets) combine56
  have two : unite 2 (fun i => getb (byteAt 5 (1 + i))) v5 s = .ok (v7, s.withSets tb) :=
    unite_succ (t := s.withSets tb) one (get7 tb) (tagCombine_clearedVal v7 tb)
  have three : unite 3 (fun i => getb (byteAt 5 (1 + i))) v5 s = .ok (⟨1⟩, s.withSets tb') :=
    unite_succ (t := s.withSets tb) two (get8 tb) combine78
  obtain ⟨t, writes, sets⟩ := setb_loop 5 ⟨1⟩ 3 (s.withSets tb')
  obtain ⟨u, last⟩ : ∃ u, setb (byteAt 5 3) ⟨1⟩ t = .ok (⟨⟩, u) := ⟨_, rfl⟩
  have run : shiftM 5 4 s = .ok (⟨⟩, u) :=
    (bind_of_ok (get5 s.sets)).trans ((bind_of_ok three).trans ((bind_of_ok writes).trans last))
  obtain ⟨table, cells⟩ := Shadow.cell_setb last
  refine ⟨u, (bind_of_ok (bind_of_ok run)).trans rfl, .mem (byteAt 5 3), ?_⟩
  rw [cells, if_pos ⟨rfl, by decide⟩, table, sets]
  change 0 ∈ tb'.setOf ⟨1⟩
  rw [zero]
  exact Finset.mem_singleton_self 0

end Painted

/-- Byte 0 of memory is loaded into AL. -/
def loadByte : Event := .handler ⟨fun _ => none, 0⟩ 0 (.movM2r DFT_REG_RAX 0 0 1)

theorem loadByte_step (s : Shadow) : ∃ t, Step s loadByte t ∧ t.sets = s.sets := by
  have read : getb (byteAt 0 0) s = .ok (_, s) := getb_of_le (by decide) s
  obtain ⟨t, write⟩ : ∃ t, gprSet DFT_REG_RAX 0 (s.cell (.mem (byteAt 0 0))) s = .ok (⟨⟩, t) :=
    ⟨_, if_pos (by decide)⟩
  have load : movM2r DFT_REG_RAX 0 0 1 s = .ok (⟨⟩, t) := by
    rw [movM2r, loop_one]
    exact (bind_of_ok read).trans write
  exact ⟨t, ⟨⟨by decide, by decide⟩, by simp [loadByte, Event.tags], bind_of_ok (bind_of_ok load)⟩,
    (Shadow.cell_gprSet write).1⟩

/-- One byte is painted and loaded; the load brings in nothing and changes AL only. -/
theorem labels_enter_at_sources_load : ∃ s t, Run Step Shadow.new [paintByte 0] s ∧
    Step s loadByte t ∧ t.labels ⊆ s.labels ∧ t.cell (.mem 0) = s.cell (.mem 0) := by
  obtain ⟨s, painted, h⟩ := painted_run 1 (by omega)
  obtain ⟨t, step, sets⟩ := loadByte_step s
  obtain ⟨frame, labels⟩ := labels_enter_at_sources painted step
  have few : t.sets.gSets.length ≤ 2 ^ 32 := by
    rw [sets, h.length]
    omega
  exact ⟨s, t, painted, step, (labels few).1 (fun h => h), frame _ mem_not_mem_regSpan⟩

/-- Without the bound, a shift of memory can hold a label that nothing held: when every id has
been given out, new unions get the ids of other sets. -/
theorem labels_enter_elsewhere :
    ¬ ∀ (es : List Event) (s t : Shadow) (e : Event), Run Step Shadow.new es s → Step s e t →
      (∀ c ∉ e.writes, t.cell c = s.cell c) ∧ (¬ e.IsSource → t.labels ⊆ s.labels) := by
  intro claim
  obtain ⟨s, painted, h⟩ := painted_run (2 ^ 32 - 1) (by omega)
  obtain ⟨s', clear, h'⟩ := h.clear (by omega)
  obtain ⟨t, run, gained⟩ := h'.shift (by omega)
  have step : Step s' shiftFour t :=
    ⟨trivial, by simp [shiftFour, Event.tags], run⟩
  obtain ⟨c, hc⟩ := (claim _ s' t shiftFour (painted.snoc clear) step).2 (fun h => h) gained
  exact absurd ((h'.cells c 0).mp hc).1 (by decide)

end LibdftDr
