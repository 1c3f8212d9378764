import Mathlib.Data.List.GetD
import Mathlib.Order.Interval.Finset.Nat
import LibdftDr.TagMap.Handles

/-!
# The tables of a run

Whatever a run does, its tables come from `tagmap_alloc` by interning singletons and unions. So
every label of a stored set has its singleton stored no later than that set, and no set has more
labels than its position: its size fits the 32 bits of `numberOfOnes`, also where ids have been
used a second time.
-/
namespace LibdftDr
open Library

namespace SetTable

/-- The tables that making and combining tags lead to, in any order. -/
inductive Reached : SetTable → Prop
  | alloc : Reached tagmapAlloc
  | set {tb} (h : Reached tb) (offset : UINT32) : Reached (Tag.set offset tb).2
  | combine {tb tb' l r t} (h : Reached tb) (run : tagCombine l r tb = .ok (t, tb')) : Reached tb'

/-- A label of 32 bits whose singleton stands at one of the positions 1 to `i`. -/
def RootedBy (tb : SetTable) (i l : ℕ) : Prop :=
  l < 2 ^ 32 ∧ ∃ j, 0 < j ∧ j ≤ i ∧ tb.gSets[j]? = some (Ascending.singleton l)

def Rooted (tb : SetTable) : Prop :=
  ∀ i s, tb.gSets[i]? = some s → ∀ l ∈ s.members, tb.RootedBy i l

variable {tb tb' : SetTable} {s : Ewah} {t l r : Tag} {i : ℕ}

theorem RootedBy.mono {j label : ℕ} (h : tb.RootedBy i label) (le : i ≤ j) (grows : tb.Grows tb') :
    tb'.RootedBy j label := by
  obtain ⟨small, k, pos, ki, hk⟩ := h
  exact ⟨small, k, pos, ki.trans le, getElem?_of_le grows hk⟩

/-- A set may be interned when its labels have singletons, or it is one. -/
theorem Rooted.internSet (h : tb.Rooted) (live : tb.Live)
    (roots : ∀ l ∈ s.members, l < 2 ^ 32 ∧
      (s = Ascending.singleton l ∨ tb.RootedBy tb.gSets.length l)) :
    (internSet s tb).2.Rooted := by
  have grows := internSet_grows s tb
  obtain ⟨id, -, heq⟩ | ⟨-, heq⟩ := internSet_cases s tb
  · rw [heq]
    exact h
  · rw [heq] at grows ⊢
    intro i u hu label hl
    obtain lt | ge := Nat.lt_or_ge i tb.gSets.length
    · have old : tb.gSets[i]? = some u := by simpa [List.getElem?_append_left lt] using hu
      exact (h i u old label hl).mono le_rfl grows
    · rw [List.getElem?_append_right ge, List.getElem?_singleton] at hu
      split_ifs at hu with last
      cases hu
      have pos : 0 < tb.gSets.length := (List.getElem?_eq_some_iff.mp live.zero).1
      obtain ⟨small, rfl | rooted⟩ := roots label hl
      · exact ⟨small, i, by omega, le_rfl, by simp [List.getElem?_append_right ge, last]⟩
      · exact rooted.mono ge grows

theorem tagCombine_rooted (h : tb.Rooted) (live : tb.Live)
    (run : tagCombine l r tb = .ok (t, tb')) : tb'.Live ∧ tb'.Rooted := by
  obtain ⟨rfl, -⟩ | ⟨rfl, -⟩ | ⟨rfl, -⟩ | ⟨a, b, ha, hb, -, eq⟩ := tagCombine_cases run
  · exact ⟨live, h⟩
  · exact ⟨live, h⟩
  · exact ⟨live, h⟩
  · obtain ⟨u, tb'', run', live', -⟩ :=
      tagCombine_live live (knows_iff.mpr ⟨a, ha⟩) (knows_iff.mpr ⟨b, hb⟩)
    cases run.symm.trans run'
    refine ⟨live', ?_⟩
    subst eq
    refine Rooted.internSet (s := a.logicalor b) h live fun label hl => ?_
    have rooted : tb.RootedBy tb.gSets.length label := by
      rw [← Ascending.mem_toFinset, Ewah.logicalor, Ascending.toFinset_union, Finset.mem_union,
        Ascending.mem_toFinset, Ascending.mem_toFinset] at hl
      obtain hl | hl := hl
      · exact (h _ a ha label hl).mono (List.getElem?_eq_some_iff.mp ha).1.le (Grows.refl tb)
      · exact (h _ b hb label hl).mono (List.getElem?_eq_some_iff.mp hb).1.le (Grows.refl tb)
    exact ⟨rooted.1, .inr rooted⟩

theorem Reached.rooted (h : tb.Reached) : tb.Live ∧ tb.Rooted := by
  induction h with
  | alloc =>
    refine ⟨tagmapAlloc_exact.live, fun i s hs label hl => ?_⟩
    rw [tagmapAlloc, List.getElem?_singleton] at hs
    split_ifs at hs
    cases hs
    cases hl
  | @set tb _ offset ih =>
    refine ⟨(tagSet_live ih.1 offset).1, Rooted.internSet ih.2 ih.1 fun label hl => ?_⟩
    obtain rfl : label = offset.toNat := List.mem_singleton.mp hl
    exact ⟨offset.isLt, .inl rfl⟩
  | combine _ run ih => exact tagCombine_rooted ih.2 ih.1 run

/-- A set has no more labels than its position. -/
theorem Rooted.card_le (h : tb.Rooted) (hs : tb.gSets[i]? = some s) : s.toFinset.card ≤ i := by
  choose! position pos le single using fun label hl => (h i s hs label hl).2
  have positions : ∀ label ∈ s.toFinset, position label ∈ Finset.Icc 1 i := by
    intro label hl
    rw [Ascending.mem_toFinset] at hl
    exact Finset.mem_Icc.mpr ⟨pos label hl, le label hl⟩
  have injective : Set.InjOn position s.toFinset := by
    intro x hx y hy same
    rw [Finset.mem_coe, Ascending.mem_toFinset] at hx hy
    have both := single x hx
    rw [same, single y hy, Option.some.injEq] at both
    exact (List.singleton_inj.mp (congrArg Ascending.members both)).symm
  simpa using Finset.card_le_card_of_injOn position positions injective

end SetTable

namespace Session

/-- The tables of the session came about by making and combining tags, and know its handles. -/
def Reached (s : Session) : Prop :=
  s.tables.Reached ∧ ∀ t ∈ s.handles, s.tables.Knows t

variable {s s' : Session}

theorem Reached.knows (h : s.Reached) (i : ℕ) : s.tables.Knows (s.handle i) := by
  unfold Session.handle
  obtain lt | ge := Nat.lt_or_ge i s.handles.length
  · rw [List.getD_eq_getElem _ _ lt]
    exact h.2 _ (List.getElem_mem lt)
  · rw [List.getD_eq_default _ _ ge]
    exact h.1.rooted.1.knows_clearedVal

/-- A new handle joins those that the tables knew before. -/
theorem Reached.push (h : s.Reached) {tables : SetTable} {t : Tag} (reached : tables.Reached)
    (grows : s.tables.Grows tables) (known : tables.Knows t) :
    Reached { s with tables := tables, handles := s.handles ++ [t] } := by
  refine ⟨reached, fun u hu => ?_⟩
  obtain old | new := List.mem_append.mp hu
  · exact grows.knows (h.2 u old)
  · rw [List.mem_singleton.mp new]
    exact known

theorem Reached.call (h : s.Reached) {c : TagCall} (run : s.call c = .ok s') : s'.Reached := by
  have live := h.1.rooted.1
  cases c with
  | makeTag label =>
    cases run
    exact h.push (h.1.set label) (SetTable.tagSet_grows label _)
      (SetTable.tagSet_live live label).2
  | combine a b =>
    obtain ⟨t, tables, combined, -, known⟩ :=
      SetTable.tagCombine_live live (h.knows a) (h.knows b)
    simp only [Session.call, combined] at run
    cases run
    exact h.push (h.1.combine combined) (SetTable.tagCombine_grows combined) known
  | read a =>
    cases run
    exact h

/-- Whatever calls a client makes, its handles are known to tables that `Reached` describes. -/
theorem reached_of_run {calls : List TagCall} (run : Session.run calls = .ok s) : s.Reached := by
  have steps : ∀ (calls : List TagCall) (s₀ : Session), s₀.Reached →
      calls.foldlM Session.call s₀ = .ok s → s.Reached := by
    intro calls
    induction calls with
    | nil =>
      rintro s₀ h ⟨⟩
      exact h
    | cons c calls ih =>
      intro s₀ h run
      rw [List.foldlM_cons] at run
      cases one : s₀.call c with
      | error e =>
        rw [one] at run
        cases run
      | ok s₁ =>
        rw [one] at run
        exact ih s₁ (h.call one) run
  exact steps calls start ⟨.alloc, by simp [start]⟩ run

end Session

end LibdftDr
