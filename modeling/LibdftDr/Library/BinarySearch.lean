import Mathlib.Data.List.Sort

/-!
# Binary search

`bisect` halves a range of positions with a test, as `std::lower_bound` does. Whatever the
test, the position before the result passed it and the result itself did not; when the
positions that pass come first, the result separates them from the others.

`binarySearch` compares through a key, so that element types without an order of their own
can be searched.
-/
namespace Library

/-- Halve `first, …, first + len - 1` until nothing is left. -/
def bisect (test : ℕ → Bool) (first len : ℕ) : ℕ :=
  if len = 0 then first
  else if test (first + len / 2) then bisect test (first + len / 2 + 1) (len - len / 2 - 1)
  else bisect test first (len / 2)
termination_by len

section Bisect

variable (test : ℕ → Bool) (first len : ℕ)

theorem le_bisect : first ≤ bisect test first len := by
  fun_induction bisect test first len <;> omega

theorem bisect_le : bisect test first len ≤ first + len := by
  fun_induction bisect test first len <;> omega

/-- The position before the result has passed the test. -/
theorem test_of_lt_bisect (h : first < bisect test first len) :
    test (bisect test first len - 1) = true := by
  fun_induction bisect test first len with
  | case1 => omega
  | case2 first len ne pass ih =>
    obtain below | same := (le_bisect test (first + len / 2 + 1) (len - len / 2 - 1)).lt_or_eq
    · exact ih below
    · rw [← same]; exact pass
  | case3 first len ne fail ih => exact ih h

/-- The result, when it is in the range, has failed the test. -/
theorem not_test_bisect (h : bisect test first len < first + len) :
    test (bisect test first len) = false := by
  fun_induction bisect test first len with
  | case1 => omega
  | case2 first len ne pass ih => exact ih (by omega)
  | case3 first len ne fail ih =>
    obtain below | same := (bisect_le test first (len / 2)).lt_or_eq
    · exact ih below
    · rw [same]; simpa using fail

variable {test first len}

/-- When the positions that pass come first, they are the ones before the result. -/
theorem lt_bisect_iff (initial : ∀ i j, i ≤ j → test j = true → test i = true) {i : ℕ}
    (low : first ≤ i) (high : i < first + len) : i < bisect test first len ↔ test i = true := by
  constructor
  · intro h
    exact initial i _ (by omega) (test_of_lt_bisect test first len (by omega))
  · intro h
    by_contra hle
    have passed := initial _ _ (not_lt.mp hle) h
    rw [not_test_bisect test first len (by omega)] at passed
    cases passed

end Bisect

variable {α κ : Type*} [LinearOrder κ]

/-- The first position whose element does not come before the bound, in a list where those
that do come first. -/
def lowerBound (before : α → Bool) (xs : List α) : ℕ :=
  bisect (fun i => (xs[i]?).any before) 0 xs.length

/-- Whether an element with the key of `v` is found by halving. -/
def binarySearch (key : α → κ) (xs : List α) (v : α) : Bool :=
  (xs[lowerBound (fun x => decide (key x < key v)) xs]?).any fun x => !decide (key v < key x)

variable {key : α → κ} {xs : List α} {v : α}

/-- What is found is there, in any list. -/
theorem exists_of_binarySearch (h : binarySearch key xs v = true) : ∃ x ∈ xs, key x = key v := by
  obtain ⟨x, hx, hle⟩ := (Option.any_eq_true _ _).mp h
  have inside := (List.getElem?_eq_some_iff.mp hx).1
  have fail := not_test_bisect (fun i => (xs[i]?).any fun x => decide (key x < key v)) 0 xs.length
    (by simpa [lowerBound] using inside)
  have reached : xs[bisect (fun i => (xs[i]?).any fun x => decide (key x < key v)) 0 xs.length]? =
    some x := hx
  simp only [reached, Option.any_some, decide_eq_false_iff_not, not_lt] at fail
  simp only [Bool.not_eq_true', decide_eq_false_iff_not, not_lt] at hle
  exact ⟨x, List.mem_of_getElem? hx, le_antisymm hle fail⟩

theorem key_le_of_le (sorted : xs.Pairwise fun x y => key x ≤ key y) {i j : ℕ} {x y : α}
    (hij : i ≤ j) (hi : xs[i]? = some x) (hj : xs[j]? = some y) : key x ≤ key y := by
  obtain ⟨hil, rfl⟩ := List.getElem?_eq_some_iff.mp hi
  obtain ⟨hjl, rfl⟩ := List.getElem?_eq_some_iff.mp hj
  obtain hlt | rfl := hij.lt_or_eq
  · exact List.pairwise_iff_getElem.mp sorted i j hil hjl hlt
  · exact le_rfl

/-- In a sorted list the elements with a smaller key come first. -/
theorem before_initial (sorted : xs.Pairwise fun x y => key x ≤ key y) (i j : ℕ) (hij : i ≤ j)
    (hj : (xs[j]?).any (fun x => decide (key x < key v)) = true) :
    (xs[i]?).any (fun x => decide (key x < key v)) = true := by
  obtain ⟨y, hy, hlt⟩ := (Option.any_eq_true _ _).mp hj
  have inside := (List.getElem?_eq_some_iff.mp hy).1
  have hx := List.getElem?_eq_getElem (hij.trans_lt inside)
  have le := key_le_of_le sorted hij hx hy
  simp only [decide_eq_true_eq] at hlt
  simp [hx, lt_of_le_of_lt le hlt]

/-- Where the elements that come before the bound come first, they are the ones before the
position that is found. -/
theorem lt_lowerBound_iff {before : α → Bool}
    (initial : ∀ i j : ℕ, i ≤ j → (xs[j]?).any before = true → (xs[i]?).any before = true)
    {i : ℕ} :
    i < lowerBound before xs ↔ (xs[i]?).any before = true := by
  by_cases inside : i < xs.length
  · exact lt_bisect_iff initial (Nat.zero_le i) (by omega)
  · have le : lowerBound before xs ≤ 0 + xs.length := bisect_le _ _ _
    rw [List.getElem?_eq_none (not_lt.mp inside)]
    simp only [Option.any_none, Bool.false_eq_true, iff_false]
    omega

/-- In a sorted list, exactly what is there is found. -/
theorem binarySearch_iff (sorted : xs.Pairwise fun x y => key x ≤ key y) :
    binarySearch key xs v = true ↔ ∃ x ∈ xs, key x = key v := by
  refine ⟨exists_of_binarySearch, ?_⟩
  rintro ⟨x, hx, hkey⟩
  obtain ⟨j, hj⟩ := List.mem_iff_getElem?.mp hx
  have inside := (List.getElem?_eq_some_iff.mp hj).1
  -- position `j` is not before the key, so the search stops at or before it
  have stop : lowerBound (fun x => decide (key x < key v)) xs ≤ j := by
    by_contra hlt
    have pass := (lt_lowerBound_iff (before_initial sorted)).mp (not_le.mp hlt)
    simp [hj, hkey] at pass
  have hy := List.getElem?_eq_getElem (stop.trans_lt inside)
  have le := key_le_of_le sorted stop hy hj
  rw [hkey] at le
  exact (Option.any_eq_true _ _).mpr ⟨_, hy, by simpa using le⟩

end Library
