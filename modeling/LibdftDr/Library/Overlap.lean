import LibdftDr.Compat
import Mathlib.Data.Nat.Init
import Mathlib.Data.Set.Basic
import Mathlib.Logic.Function.Basic

/-!
# Copies between ranges that may overlap

A forward copy writes each item before it reads the next, so that a destination a few items
after its source gets the first items of the source again and again. `forwardCopy_at` says
which item arrives where, and `forwardCopy_moves_iff` when the copy is a move, in which all
items are read before the first is written.

Memory is a function of an arbitrary type of addresses; `pos` numbers them.
-/
namespace Library

variable {A τ : Type*}

section Copy

variable [DecidableEq A]

/-- `n` items, one after the other. -/
def forwardCopy (m : A → τ) (dst src : ℕ → A) : ℕ → A → τ
  | 0 => m
  | n + 1 =>
    let m' := forwardCopy m dst src n
    Function.update m' (dst n) (m' (src n))

variable {m : A → τ} {dst src : ℕ → A}

theorem forwardCopy_of_ne {n : ℕ} {a : A} (h : ∀ i < n, a ≠ dst i) :
    forwardCopy m dst src n a = m a := by
  induction n with
  | zero => rfl
  | succ n ih =>
    rw [forwardCopy, Function.update_of_ne (h n (by omega))]
    exact ih fun i hi => h i (by omega)

end Copy

/-- The `n` addresses have successive numbers from `base` on. -/
def Successive (pos : A → ℕ) (addr : ℕ → A) (base n : ℕ) : Prop :=
  ∀ i < n, pos (addr i) = base + i

/-- Which item of the source a forward copy puts at place `i` of the destination. -/
def origin (d s i : ℕ) : ℕ := if s < d then i % (d - s) else i

theorem origin_of_lt {d s i : ℕ} (h : s + i < d) : origin d s i = i := by
  unfold origin
  split_ifs
  · exact Nat.mod_eq_of_lt (by omega)
  · rfl

/-- Reading an item that has been overwritten gives what stands in its place. -/
theorem origin_sub {d s i : ℕ} (lt : s < d) (h : d ≤ s + i) :
    origin d s (i - (d - s)) = origin d s i := by
  simp only [origin, lt, if_true]
  exact (Nat.mod_eq_sub_mod (by omega)).symm

/-- The items repeat at distance `k`. -/
def Repeats (m : A → τ) (src : ℕ → A) (k n : ℕ) : Prop :=
  ∀ i, i + k < n → m (src (i + k)) = m (src i)

theorem Repeats.mod {m : A → τ} {src : ℕ → A} {k n : ℕ} (h : Repeats m src k n) {i : ℕ}
    (hi : i < n) : m (src (i % k)) = m (src i) := by
  induction i using Nat.strong_induction_on with
  | _ i ih =>
    by_cases hk : k ≤ i ∧ 0 < k
    · have back := h (i - k) (by omega)
      rw [Nat.sub_add_cancel hk.1] at back
      rw [Nat.mod_eq_sub_mod hk.1, back]
      exact ih (i - k) (by omega) (by omega)
    · obtain rfl | lt : k = 0 ∨ i < k := by omega
      · rw [Nat.mod_zero]
      · rw [Nat.mod_eq_of_lt lt]

section Numbered

variable [DecidableEq A] {pos : A → ℕ} {m : A → τ} {dst src : ℕ → A} {d s n : ℕ}

/-- What a forward copy leaves in its destination. -/
theorem forwardCopy_at (inj : Function.Injective pos) (hd : Successive pos dst d n)
    (hs : Successive pos src s n) {i : ℕ} (hi : i < n) :
    forwardCopy m dst src n (dst i) = m (src (origin d s i)) := by
  induction n generalizing i with
  | zero => omega
  | succ n ih =>
    have hd' : Successive pos dst d n := fun j hj => hd j (by omega)
    have hs' : Successive pos src s n := fun j hj => hs j (by omega)
    have hdn := hd n (by omega)
    have hsn := hs n (by omega)
    obtain rfl | lt : i = n ∨ i < n := by omega
    · rw [forwardCopy, Function.update_self]
      by_cases reread : s < d ∧ d ≤ s + i
      · -- the item was overwritten by the one that is `d - s` places before it
        have place : src i = dst (i - (d - s)) := by
          apply inj
          rw [hsn, hd (i - (d - s)) (by omega)]
          omega
        rw [place, ih hd' hs' (by omega), origin_sub reread.1 reread.2]
      · have own : origin d s i = i := by
          by_cases before : s < d
          · exact origin_of_lt (by omega)
          · simp [origin, before]
        rw [own]
        apply forwardCopy_of_ne
        intro j hj e
        have := congrArg pos e
        rw [hsn, hd j (by omega)] at this
        omega
    · have ne : dst i ≠ dst n := by
        intro e
        have := congrArg pos e
        rw [hd i (by omega), hdn] at this
        omega
      rw [forwardCopy, Function.update_of_ne ne]
      exact ih hd' hs' lt

/-- A forward copy is a move exactly when its destination does not start after the source or
the source repeats at their distance; from the end of the source on that says nothing. -/
theorem forwardCopy_moves_iff (inj : Function.Injective pos) (hd : Successive pos dst d n)
    (hs : Successive pos src s n) :
    (∀ i < n, forwardCopy m dst src n (dst i) = m (src i)) ↔
      (s < d → Repeats m src (d - s) n) := by
  have at_ : ∀ i < n, forwardCopy m dst src n (dst i) = m (src (origin d s i)) :=
    fun i hi => forwardCopy_at inj hd hs hi
  constructor
  · intro h lt i hi
    have second := (at_ (i + (d - s)) hi).symm.trans (h _ hi)
    have first := (at_ i (by omega)).symm.trans (h i (by omega))
    rw [← second, ← first, ← origin_sub lt (i := i + (d - s)) (by omega), Nat.add_sub_cancel]
  · intro h i hi
    rw [at_ i hi, origin]
    split_ifs with lt
    · exact (h lt).mod hi
    · rfl

end Numbered

end Library
