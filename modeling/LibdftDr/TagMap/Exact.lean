import LibdftDr.TagMap.SetTable

/-!
# What the set table means

`setOf` is the label set an id stands for. `Live` keeps every id inside `g_sets`; `Exact`
keeps ids and sets in one-to-one correspondence. Each operation extends `g_sets` at the end
(`grow`), so an id that is live keeps its set for ever.
-/
namespace LibdftDr
open Library

/-- The number of ids a 32-bit `id` field can hold. -/
def idSpace : ℕ := 2 ^ 32

namespace SetTable

/-- The id of `t` indexes `g_sets`. -/
def Knows (tb : SetTable) (t : Tag) : Prop := t.id.toNat < tb.gSets.length

/-- The label set of a tag; an id outside the table reads as the empty set, as printing it does. -/
def setOf (tb : SetTable) (t : Tag) : Finset ℕ :=
  match tb.gSets[t.id.toNat]? with
  | some s => s.toFinset
  | none => ∅

/-- No id in the tables points past `g_sets`; the empty set is stored first and not again. -/
structure Live (tb : SetTable) : Prop where
  zero : tb.gSets[0]? = some Ascending.empty
  nonempty : ∀ i s, tb.gSets[i + 1]? = some s → s ≠ Ascending.empty
  intern : ∀ k id, tb.gIntern k = some id → tb.Knows ⟨id⟩
  combine : ∀ k id, tb.gCombine k = some id → tb.Knows ⟨id⟩

/-- Ids and sets correspond one to one, id 0 is empty, remembered unions are unions. -/
structure Exact (tb : SetTable) : Prop where
  small : tb.gSets.length ≤ idSpace
  zero : tb.gSets[0]? = some Ascending.empty
  interned : Interned ewahSprint BitVec.toNat tb.gSets tb.gIntern
  memoized : Memoized Ascending.union combineKey BitVec.toNat tb.gSets tb.gCombine
  mirrored : ∀ a b, tb.gCombine (combineKey a b) = tb.gCombine (combineKey b a)

/-- The sets that have an id. -/
def stored (tb : SetTable) : Finset (Finset ℕ) := (tb.gSets.map Ascending.toFinset).toFinset

theorem mem_stored {tb : SetTable} {u : Finset ℕ} :
    u ∈ tb.stored ↔ ∃ s ∈ tb.gSets, s.toFinset = u := by
  simp [stored]

theorem Exact.card_stored {tb : SetTable} (h : tb.Exact) : tb.stored.card = tb.gSets.length := by
  have nodup := h.interned.nodup.map Ascending.toFinset_injective
  rw [stored, List.toFinset_card_of_nodup nodup, List.length_map]

/-- `g_sets` of the second table continues that of the first. -/
def Grows (tb tb' : SetTable) : Prop := tb.gSets <+: tb'.gSets

theorem Grows.refl (tb : SetTable) : tb.Grows tb := List.prefix_rfl

theorem Grows.trans {a b c : SetTable} (h : a.Grows b) (g : b.Grows c) : a.Grows c :=
  List.IsPrefix.trans h g

theorem Grows.length_le {tb tb' : SetTable} (h : tb.Grows tb') :
    tb.gSets.length ≤ tb'.gSets.length := List.IsPrefix.length_le h

theorem Grows.knows {tb tb' : SetTable} (h : tb.Grows tb') {t : Tag} (ht : tb.Knows t) :
    tb'.Knows t := lt_of_lt_of_le ht h.length_le

theorem knows_iff {tb : SetTable} {t : Tag} :
    tb.Knows t ↔ ∃ s, tb.gSets[t.id.toNat]? = some s := by
  simp [Knows, List.getElem?_eq_some_iff]

theorem setOf_eq {tb : SetTable} {t : Tag} {s : Ewah} (h : tb.gSets[t.id.toNat]? = some s) :
    tb.setOf t = s.toFinset := by simp [setOf, h]

/-- A live id keeps its meaning. -/
theorem Grows.setOf {tb tb' : SetTable} (h : tb.Grows tb') {t : Tag} (ht : tb.Knows t) :
    tb'.setOf t = tb.setOf t := by
  obtain ⟨s, hs⟩ := knows_iff.mp ht
  rw [setOf_eq hs, setOf_eq (getElem?_of_le h hs)]

namespace Live

variable {tb : SetTable} {t : Tag} {s : Ewah}

theorem knows_clearedVal (h : tb.Live) : tb.Knows clearedVal :=
  (List.getElem?_eq_some_iff.mp h.zero).1

theorem setOf_clearedVal (h : tb.Live) : tb.setOf clearedVal = ∅ := by
  rw [setOf_eq (t := clearedVal) h.zero, Ascending.toFinset_empty]

/-- An id other than 0 is that of a nonempty set. -/
theorem ne_empty (h : tb.Live) (hs : tb.gSets[t.id.toNat]? = some s) (ht : t.id ≠ 0) :
    s ≠ Ascending.empty := by
  obtain ⟨i, hi⟩ : ∃ i, t.id.toNat = i + 1 :=
    Nat.exists_eq_succ_of_ne_zero fun e => ht (BitVec.eq_of_toNat_eq e)
  rw [hi] at hs
  exact h.nonempty i s hs

/-- The empty set is id 0 and no other. -/
theorem setOf_eq_empty (h : tb.Live) (ht : tb.Knows t) : tb.setOf t = ∅ ↔ t = clearedVal := by
  obtain ⟨s, hs⟩ := knows_iff.mp ht
  constructor
  · intro empty
    by_contra ne
    rw [setOf_eq hs] at empty
    exact h.ne_empty hs (fun e => ne (Tag.ext e)) (Ascending.toFinset_injective empty)
  · rintro rfl
    exact h.setOf_clearedVal

theorem tagCount_iff (h : tb.Live) (ht : tb.Knows t) : tagCount t = true ↔ tb.setOf t ≠ ∅ := by
  rw [Ne, h.setOf_eq_empty ht, tagCount, bne_iff_ne, Ne, Tag.ext_iff]
  rfl

theorem tagSprint_eq (h : tb.Live) (hs : tb.gSets[t.id.toNat]? = some s) :
    tagSprint t tb = s.print := by
  unfold tagSprint
  split_ifs with h0
  · rw [h0] at hs
    obtain rfl : Ascending.empty = s := Option.some.inj (h.zero.symm.trans hs)
    rfl
  · simp [hs, ewahSprint_eq_print]

theorem numberOfOnes_eq (h : tb.Live) (ht : tb.Knows t) :
    t.numberOfOnes tb = BitVec.ofNat 32 (tb.setOf t).card := by
  obtain ⟨s, hs⟩ := knows_iff.mp ht
  unfold Tag.numberOfOnes
  split_ifs with h0
  · have : t = clearedVal := Tag.ext h0
    rw [(h.setOf_eq_empty ht).mpr this]; rfl
  · simp [hs, setOf_eq hs, Ewah.numberOfOnes]

end Live

namespace Exact

variable {tb : SetTable}

theorem live (h : tb.Exact) : tb.Live where
  zero := h.zero
  nonempty i s hs e := by
    have := h.interned.position_unique hs h.zero (congrArg ewahSprint e)
    omega
  intern k id hk := by
    obtain ⟨s, hs, -⟩ := h.interned.sound k id hk
    exact knows_iff.mpr ⟨s, hs⟩
  combine k id hk := by
    obtain ⟨a, b, u, v, -, -, -, hs⟩ := h.memoized k id hk
    exact knows_iff.mpr ⟨_, hs⟩

theorem setOf_clearedVal (h : tb.Exact) : tb.setOf clearedVal = ∅ := h.live.setOf_clearedVal

/-- Two live ids are equal exactly when their sets are. -/
theorem eq_iff_setOf_eq (h : tb.Exact) {t u : Tag} (ht : tb.Knows t) (hu : tb.Knows u) :
    t = u ↔ tb.setOf t = tb.setOf u := by
  refine ⟨fun e => by rw [e], fun e => Tag.ext (BitVec.eq_of_toNat_eq ?_)⟩
  obtain ⟨r, hr⟩ := knows_iff.mp ht
  obtain ⟨s, hs⟩ := knows_iff.mp hu
  rw [setOf_eq hr, setOf_eq hs, Ascending.toFinset_inj] at e
  exact h.interned.position_unique hr hs (congrArg ewahSprint e)

end Exact

/-! ## Allocation -/

theorem tagmapAlloc_exact : tagmapAlloc.Exact where
  small := by decide
  zero := rfl
  interned := Interned.empty.push rfl rfl
  memoized := Memoized.empty
  mirrored _ _ := rfl

/-! ## Interning -/

section Intern

variable {tb : SetTable} {s : Ewah}

theorem internSet_cases (s : Ewah) (tb : SetTable) :
    (∃ id, tb.gIntern (ewahSprint s) = some id ∧ internSet s tb = (id, tb)) ∨
    (tb.gIntern (ewahSprint s) = none ∧
      internSet s tb = (BitVec.ofNat 32 tb.gSets.length,
        { tb with
          gSets := tb.gSets ++ [s]
          gIntern := Function.update tb.gIntern (ewahSprint s)
            (some (BitVec.ofNat 32 tb.gSets.length)) })) := by
  unfold internSet
  cases h : tb.gIntern (ewahSprint s) with
  | some id => exact .inl ⟨id, rfl, rfl⟩
  | none => exact .inr ⟨rfl, rfl⟩

theorem internSet_grows (s : Ewah) (tb : SetTable) : tb.Grows (internSet s tb).2 := by
  obtain ⟨id, -, h⟩ | ⟨-, h⟩ := internSet_cases s tb <;> rw [h]
  · exact Grows.refl tb
  · exact List.prefix_append _ _

theorem internSet_live (h : tb.Live) (hs : s ≠ Ascending.empty) :
    (internSet s tb).2.Live ∧ (internSet s tb).2.Knows ⟨(internSet s tb).1⟩ := by
  have grow := internSet_grows s tb
  obtain ⟨id, found, heq⟩ | ⟨fresh, heq⟩ := internSet_cases s tb
  · rw [heq]; exact ⟨h, h.intern _ _ found⟩
  · rw [heq] at grow ⊢
    -- a truncated id is still a position of the longer table
    have known : tb.gSets.length % 2 ^ 32 < (tb.gSets ++ [s]).length := by
      have := Nat.mod_le tb.gSets.length (2 ^ 32)
      simp; omega
    refine ⟨⟨getElem?_of_le grow h.zero, fun i u hu => ?_, fun k id hk => ?_,
      fun k id hk => grow.knows (h.combine k id hk)⟩, by simpa [Knows] using known⟩
    · obtain hi | hi := Nat.lt_or_ge (i + 1) tb.gSets.length
      · exact h.nonempty i u (by simpa [List.getElem?_append_left hi] using hu)
      · rw [List.getElem?_append_right hi, List.getElem?_singleton] at hu
        split_ifs at hu
        exact Option.some.inj hu ▸ hs
    · by_cases hks : k = ewahSprint s
      · subst hks
        obtain rfl : BitVec.ofNat 32 tb.gSets.length = id := by simpa using hk
        simpa [Knows] using known
      · simp only [Function.update_of_ne hks] at hk
        exact grow.knows (h.intern k id hk)

theorem internSet_exact (h : tb.Exact) (room : (internSet s tb).2.gSets.length ≤ idSpace) :
    (internSet s tb).2.Exact ∧
      (internSet s tb).2.gSets[(internSet s tb).1.toNat]? = some s := by
  have grow := internSet_grows s tb
  obtain ⟨id, found, heq⟩ | ⟨fresh, heq⟩ := internSet_cases s tb
  · rw [heq]; exact ⟨h, h.interned.hit ewahSprint_injective found⟩
  · rw [heq] at room grow ⊢
    have next : (BitVec.ofNat 32 tb.gSets.length).toNat = tb.gSets.length := by
      have : tb.gSets.length + 1 ≤ 2 ^ 32 := by simpa [idSpace] using room
      rw [BitVec.toNat_ofNat, Nat.mod_eq_of_lt (by omega)]
    exact ⟨⟨room, getElem?_of_le grow h.zero, h.interned.push fresh next,
      h.memoized.mono grow, h.mirrored⟩, by simp [next]⟩

/-- Interning adds one set to those that have an id; the table stays as long as they are many. -/
theorem internSet_stored (h : tb.Exact) (s : Ewah) :
    (internSet s tb).2.stored = insert s.toFinset tb.stored ∧
      (internSet s tb).2.gSets.length = (internSet s tb).2.stored.card := by
  obtain ⟨id, found, heq⟩ | ⟨fresh, heq⟩ := internSet_cases s tb
  · rw [heq]
    have hit := List.mem_of_getElem? (h.interned.hit ewahSprint_injective found)
    exact ⟨(Finset.insert_eq_self.mpr (mem_stored.mpr ⟨s, hit, rfl⟩)).symm, h.card_stored.symm⟩
  · have miss : s.toFinset ∉ tb.stored := by
      intro hs
      obtain ⟨r, hr, hrs⟩ := mem_stored.mp hs
      obtain ⟨j, hj⟩ := List.mem_iff_getElem?.mp hr
      obtain ⟨id, hid, -⟩ := h.interned.complete j r hj
      rw [Ascending.toFinset_inj] at hrs
      simp [hrs, fresh] at hid
    have added : (internSet s tb).2.stored = insert s.toFinset tb.stored := by
      rw [heq]
      ext u
      simp only [mem_stored, Finset.mem_insert, List.mem_append, List.mem_singleton]
      constructor
      · rintro ⟨r, hr | rfl, rfl⟩
        · exact .inr ⟨r, hr, rfl⟩
        · exact .inl rfl
      · rintro (rfl | ⟨r, hr, rfl⟩)
        · exact ⟨s, .inr rfl, rfl⟩
        · exact ⟨r, .inl hr, rfl⟩
    refine ⟨added, ?_⟩
    rw [added, Finset.card_insert_of_notMem miss, h.card_stored, heq]
    simp

end Intern

theorem tagSet_grows (offset : UINT32) (tb : SetTable) : tb.Grows (Tag.set offset tb).2 :=
  internSet_grows _ tb

theorem tagSet_live {tb : SetTable} (h : tb.Live) (offset : UINT32) :
    (Tag.set offset tb).2.Live ∧ (Tag.set offset tb).2.Knows (Tag.set offset tb).1 :=
  internSet_live h (by simp [Ewah.set, Ascending.singleton, Ascending.empty])

theorem tagSet_exact {tb : SetTable} (h : tb.Exact) (offset : UINT32)
    (room : (Tag.set offset tb).2.gSets.length ≤ idSpace) :
    (Tag.set offset tb).2.Exact ∧
      (Tag.set offset tb).2.setOf (Tag.set offset tb).1 = {offset.toNat} := by
  obtain ⟨exact', hs⟩ := internSet_exact (s := Ewah.set offset) h room
  have hs' : (Tag.set offset tb).2.gSets[(Tag.set offset tb).1.id.toNat]? =
    some (Ewah.set offset) := hs
  exact ⟨exact', by rw [setOf_eq hs']; simp [Ewah.set]⟩

/-! ## Combining -/

section Combine

variable {tb tb' : SetTable} {l r t : Tag}

/-- The three ways `tag_combine` returns: one of its arguments, a remembered id, or the id
of a freshly interned union. -/
theorem tagCombine_cases (h : tagCombine l r tb = .ok (t, tb')) :
    (tb' = tb ∧ t = l ∧ (l = r ∨ r = clearedVal)) ∨
    (tb' = tb ∧ t = r ∧ l = clearedVal) ∨
    (tb' = tb ∧ tb.gCombine (combineKey l.id r.id) = some t.id) ∨
    (∃ a b, tb.gSets[l.id.toNat]? = some a ∧ tb.gSets[r.id.toNat]? = some b ∧
      t.id = (internSet (a.logicalor b) tb).1 ∧
      tb' = { (internSet (a.logicalor b) tb).2 with
        gCombine := Function.update
          (Function.update (internSet (a.logicalor b) tb).2.gCombine
            (combineKey l.id r.id) (some t.id))
          (combineKey r.id l.id) (some t.id) }) := by
  unfold tagCombine at h
  split_ifs at h with heq hl hr
  · cases h; exact .inl ⟨rfl, rfl, .inl (Tag.ext heq)⟩
  · cases h; exact .inr (.inl ⟨rfl, rfl, Tag.ext hl⟩)
  · cases h; exact .inl ⟨rfl, rfl, .inr (Tag.ext hr)⟩
  · cases memo : tb.gCombine (combineKey l.id r.id) with
    | some id =>
      rw [memo] at h; cases h
      exact .inr (.inr (.inl ⟨rfl, rfl⟩))
    | none =>
      rw [memo] at h
      cases ha : tb.gSets[l.id.toNat]? with
      | none => simp [ha] at h
      | some a =>
        cases hb : tb.gSets[r.id.toNat]? with
        | none => simp [ha, hb] at h
        | some b =>
          simp only [ha, hb] at h
          cases h
          exact .inr (.inr (.inr ⟨a, b, rfl, rfl, rfl, rfl⟩))

theorem tagCombine_grows (h : tagCombine l r tb = .ok (t, tb')) : tb.Grows tb' := by
  obtain ⟨rfl, -⟩ | ⟨rfl, -⟩ | ⟨rfl, -⟩ | ⟨a, b, -, -, -, rfl⟩ := tagCombine_cases h
  · exact Grows.refl _
  · exact Grows.refl _
  · exact Grows.refl _
  · exact internSet_grows (a.logicalor b) tb

/-- Combining two live ids never indexes past `g_sets` and keeps the tables live. -/
theorem tagCombine_live (h : tb.Live) (hl : tb.Knows l) (hr : tb.Knows r) :
    ∃ t tb', tagCombine l r tb = .ok (t, tb') ∧ tb'.Live ∧ tb'.Knows t := by
  obtain ⟨a, ha⟩ := knows_iff.mp hl
  obtain ⟨b, hb⟩ := knows_iff.mp hr
  unfold tagCombine
  split_ifs with heq hl0 hr0
  · exact ⟨l, tb, rfl, h, hl⟩
  · exact ⟨r, tb, rfl, h, hr⟩
  · exact ⟨l, tb, rfl, h, hl⟩
  · cases memo : tb.gCombine (combineKey l.id r.id) with
    | some id => exact ⟨⟨id⟩, tb, rfl, h, h.combine _ _ memo⟩
    | none =>
      have union : a.logicalor b ≠ Ascending.empty := by
        intro e
        have := congrArg Ascending.toFinset e
        rw [Ewah.logicalor, Ascending.toFinset_union, Ascending.toFinset_empty,
          Finset.union_eq_empty] at this
        exact h.ne_empty ha hl0 (Ascending.toFinset_injective this.1)
      obtain ⟨live, known⟩ := internSet_live h union
      simp only [ha, hb]
      refine ⟨_, _, rfl, ⟨live.zero, live.nonempty, live.intern, fun k id hk => ?_⟩, known⟩
      have stored : id = (internSet (a.logicalor b) tb).1 ∨
          (internSet (a.logicalor b) tb).2.gCombine k = some id := by
        simp only [Function.update_apply] at hk
        split_ifs at hk
        · exact .inl (Option.some.inj hk).symm
        · exact .inl (Option.some.inj hk).symm
        · exact .inr hk
      obtain rfl | hk := stored
      · exact known
      · exact live.combine k id hk

theorem tagCombine_exact (h : tb.Exact) (hl : tb.Knows l) (hr : tb.Knows r)
    (run : tagCombine l r tb = .ok (t, tb')) (room : tb'.gSets.length ≤ idSpace) :
    tb'.Exact ∧ tb'.Knows t ∧ tb'.setOf t = tb.setOf l ∪ tb.setOf r := by
  obtain ⟨rfl, rfl, hcase⟩ | ⟨rfl, rfl, rfl⟩ | ⟨rfl, memo⟩ | ⟨a, b, ha, hb, hid, rfl⟩ :=
    tagCombine_cases run
  · refine ⟨h, hl, ?_⟩
    obtain rfl | rfl := hcase
    · simp
    · simp [h.setOf_clearedVal]
  · exact ⟨h, hr, by simp [h.setOf_clearedVal]⟩
  · obtain ⟨u, v, hu, hv, hc⟩ := h.memoized.result
      (fun _ _ _ _ => combineKey_injective) memo
    exact ⟨h, knows_iff.mpr ⟨_, hc⟩, by
      rw [setOf_eq hc, setOf_eq hu, setOf_eq hv, Ascending.toFinset_union]⟩
  · obtain ⟨exact', hs⟩ := internSet_exact (s := a.logicalor b) h room
    have grow := internSet_grows (a.logicalor b) tb
    have hs' : (internSet (a.logicalor b) tb).2.gSets[t.id.toNat]? = some (a.logicalor b) := by
      rw [hid]; exact hs
    have ha' := getElem?_of_le grow ha
    have hb' := getElem?_of_le grow hb
    have comm : a.logicalor b = Ascending.union b a :=
      Ascending.toFinset_injective (by simp [Ewah.logicalor, Finset.union_comm])
    refine ⟨⟨room, exact'.zero, exact'.interned, ?_, ?_⟩, knows_iff.mpr ⟨_, hs'⟩, ?_⟩
    · exact (exact'.memoized.remember ha' hb' hs').remember hb' ha' (by rw [hs', comm])
    · intro x y
      have old := exact'.mirrored x y
      have swap : ∀ p q : Tag, combineKey x y = combineKey p.id q.id ↔
          combineKey y x = combineKey q.id p.id := by
        intro p q
        constructor <;> intro e <;> obtain ⟨rfl, rfl⟩ := combineKey_injective e <;> rfl
      simp only [Function.update_apply, swap l r, swap r l, old]
      split_ifs <;> rfl
    · rw [setOf_eq ha, setOf_eq hb, ← Ascending.toFinset_union]
      exact setOf_eq hs'

/-- Combining adds at most the union to the sets that have an id. -/
theorem tagCombine_stored (h : tb.Exact) (hl : tb.Knows l) (hr : tb.Knows r)
    (run : tagCombine l r tb = .ok (t, tb')) :
    tb'.stored = insert (tb.setOf l ∪ tb.setOf r) tb.stored ∧
      tb'.gSets.length = tb'.stored.card := by
  -- when the table is not extended, the union already has the id returned
  have kept : tb' = tb → tb'.stored = insert (tb.setOf l ∪ tb.setOf r) tb.stored ∧
      tb'.gSets.length = tb'.stored.card := by
    rintro rfl
    obtain ⟨-, known, union⟩ := tagCombine_exact h hl hr run h.small
    obtain ⟨s, hs⟩ := knows_iff.mp known
    have mem : tb'.setOf l ∪ tb'.setOf r ∈ tb'.stored :=
      mem_stored.mpr ⟨s, List.mem_of_getElem? hs, by rw [← union, setOf_eq hs]⟩
    exact ⟨(Finset.insert_eq_self.mpr mem).symm, h.card_stored.symm⟩
  obtain ⟨same, -⟩ | ⟨same, -⟩ | ⟨same, -⟩ | ⟨a, b, ha, hb, -, rfl⟩ := tagCombine_cases run
  · exact kept same
  · exact kept same
  · exact kept same
  · have added := internSet_stored h (a.logicalor b)
    rw [show (a.logicalor b).toFinset = tb.setOf l ∪ tb.setOf r by
      rw [setOf_eq ha, setOf_eq hb]; exact Ascending.toFinset_union a b] at added
    exact added

end Combine

end SetTable

end LibdftDr
