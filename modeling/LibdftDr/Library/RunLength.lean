import Mathlib.Data.List.Basic

/-!
# Sequences in runs

A `Segment` is a run of one value followed by values one by one; `values` is the sequence that
a list of segments stands for. Two such sequences are combined by taking the shorter of the two
segments at hand and as much of the other (`zipWith_all`).
-/
namespace Library

theorem zipWith_take_right {α β γ : Type*} (f : α → β → γ) (as : List α) (bs : List β) :
    List.zipWith f as (bs.take as.length) = List.zipWith f as bs := by
  induction as generalizing bs with
  | nil => simp
  | cons a as ih => cases bs <;> simp [ih]

/-- `run` times the value of `fill`, then `lits`. -/
@[ext] structure Segment (φ β : Type*) where
  fill : φ
  run : ℕ
  lits : List β

namespace Segment

variable {φ β γ : Type*} (val : φ → β) {s p q : Segment φ β} {k : ℕ}

def size (s : Segment φ β) : ℕ := s.run + s.lits.length

def values (s : Segment φ β) : List β := List.replicate s.run (val s.fill) ++ s.lits

/-- The segment without its first `k` values. -/
def discard (s : Segment φ β) (k : ℕ) : Segment φ β where
  fill := s.fill
  run := s.run - k
  lits := s.lits.drop (k - s.run)

@[simp] theorem length_values : (s.values val).length = s.size := by simp [values, size]

theorem values_of_run_eq_zero (h : s.run = 0) : s.values val = s.lits := by simp [values, h]

@[simp] theorem values_discard : (s.discard k).values val = (s.values val).drop k := by
  simp [values, discard, List.drop_append]

theorem size_discard : (s.discard k).size = s.size - k := by
  simp only [size, discard, List.length_drop]
  omega

@[simp] theorem discard_zero : s.discard 0 = s := by simp [discard]

theorem discard_run : (s.discard k).run = s.run - k := rfl

theorem discard_lits_of_le (h : k ≤ s.run) : (s.discard k).lits = s.lits := by
  simp [discard, Nat.sub_eq_zero_of_le h]

theorem discard_discard (j : ℕ) : (s.discard k).discard j = s.discard (k + j) := by
  have sums : k - s.run + (j - (s.run - k)) = k + j - s.run := by omega
  ext1
  · rfl
  · exact Nat.sub_sub ..
  · simp only [discard, List.drop_drop, sums]

/-- The first values of a segment that starts with a run. -/
theorem take_values_of_le (h : k ≤ s.run) :
    (s.values val).take k = List.replicate k (val s.fill) := by
  simp [values, List.take_append, h]

/-- The sequence of a list of segments. -/
def all (ss : List (Segment φ β)) : List β := ss.flatMap (values val)

@[simp] theorem all_nil : all val ([] : List (Segment φ β)) = [] := rfl

@[simp] theorem all_cons (ss : List (Segment φ β)) :
    all val (s :: ss) = s.values val ++ all val ss :=
  rfl

theorem all_append (ss ts : List (Segment φ β)) : all val (ss ++ ts) = all val ss ++ all val ts :=
  List.flatMap_append

/-- The last segment takes up more values. -/
theorem all_concat_eq {ss : List (Segment φ β)} {t : Segment φ β} {vs : List β}
    (h : t.values val = s.values val ++ vs) : all val (ss ++ [t]) = all val (ss ++ [s]) ++ vs := by
  simp [all_append, h]

/-- The shorter of two segments is gone through before the rest. -/
theorem zipWith_all (f : β → β → γ) (le : p.size ≤ q.size) (ps qs : List (Segment φ β)) :
    List.zipWith f (all val (p :: ps)) (all val (q :: qs)) =
      List.zipWith f (p.values val) (q.values val) ++
        List.zipWith f (all val ps) (all val (q.discard p.size :: qs)) := by
  have short : (p.values val).length ≤ (q.values val).length := by simpa using le
  have take : (all val (q :: qs)).take p.size = (q.values val).take p.size := by
    rw [all_cons, List.take_append_of_le_length (by simpa using le)]
  have drop : (all val (q :: qs)).drop p.size = all val (q.discard p.size :: qs) := by
    rw [all_cons, all_cons, values_discard, List.drop_append_of_le_length (by simpa using le)]
  have front : (all val (p :: ps)).take p.size = p.values val := by
    rw [all_cons, ← length_values val, List.take_left]
  have back : (all val (p :: ps)).drop p.size = all val ps := by
    rw [all_cons, ← length_values val, List.drop_left]
  conv_lhs => rw [← List.take_append_drop p.size (List.zipWith ..), List.take_zipWith,
    List.drop_zipWith, front, back, take, drop]
  congr 1
  rw [← length_values val (s := p)]
  exact zipWith_take_right f _ _

end Segment

end Library
