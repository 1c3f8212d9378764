import LibdftDr.TagMap.Bitmap
import Mathlib.Data.Finset.Insert

/-!
# The set that a bitmap denotes

Bit `i` of the uncompressed words says whether `i` is in the set. The words reach at least as far
as `sizeinbits`, and no bit at or above it is set. Padding adds words of zeros; where the last
segment has no literal words it may add one more than the size needs, since it does not use up
the rest of a word that is only partly counted.
-/
namespace LibdftDr
open Library RunningLengthWord

/-- Bit `i` of a sequence of words. -/
def wordsBit (ws : List Word) (i : ℕ) : Bool := (ws.getD (i / 32) 0).getLsbD (i % 32)

section Bits

variable {ws vs : List Word} {i k : ℕ} {w : Word}

theorem wordsBit_of_le (h : 32 * ws.length ≤ i) : wordsBit ws i = false := by
  have out : ws.length ≤ i / 32 := by omega
  rw [wordsBit, List.getD_eq_default _ _ out]
  exact BitVec.getLsbD_zero

theorem wordsBit_append_left (h : i < 32 * ws.length) : wordsBit (ws ++ vs) i = wordsBit ws i := by
  have inside : i / 32 < ws.length := by omega
  simp only [wordsBit, List.getD_eq_getElem?_getD, List.getElem?_append_left inside]

theorem wordsBit_append_right (h : 32 * ws.length ≤ i) :
    wordsBit (ws ++ vs) i = wordsBit vs (i - 32 * ws.length) := by
  have beyond : ws.length ≤ i / 32 := by omega
  have word : (i - 32 * ws.length) / 32 = i / 32 - ws.length := by omega
  have place : (i - 32 * ws.length) % 32 = i % 32 := by omega
  simp only [wordsBit, List.getD_eq_getElem?_getD, List.getElem?_append_right beyond, word, place]

@[simp] theorem wordsBit_zeros : wordsBit (List.replicate k 0) i = false := by
  have zero : (List.replicate k (0 : Word)).getD (i / 32) 0 = 0 := by
    rw [List.getD_eq_getElem?_getD, List.getElem?_replicate]
    split_ifs <;> rfl
  rw [wordsBit, zero]
  exact BitVec.getLsbD_zero

@[simp] theorem wordsBit_append_zeros : wordsBit (ws ++ List.replicate k 0) i = wordsBit ws i := by
  by_cases h : i < 32 * ws.length
  · exact wordsBit_append_left h
  · rw [wordsBit_append_right (not_lt.mp h), wordsBit_zeros, wordsBit_of_le (not_lt.mp h)]

theorem wordsBit_zipWith_or (hws : i < 32 * ws.length) (hvs : i < 32 * vs.length) :
    wordsBit (List.zipWith (· ||| ·) ws vs) i = (wordsBit ws i || wordsBit vs i) := by
  have inside : i / 32 < ws.length := by omega
  have inside' : i / 32 < vs.length := by omega
  simp [wordsBit, List.getD_eq_getElem?_getD, List.getElem?_zipWith,
    List.getElem?_eq_getElem inside, List.getElem?_eq_getElem inside']

end Bits

namespace Bitmap

/-- A well-formed bitmap of the set `s`. -/
structure Denotes (b : Bitmap) (s : Finset ℕ) : Prop where
  stores : ∃ ws, b.Stores ws ∧ b.sizeinbits ≤ 32 * ws.length ∧ ∀ i, i ∈ s ↔ wordsBit ws i = true
  below : ∀ i ∈ s, i < b.sizeinbits

section Denotes

variable {b : Bitmap} {s : Finset ℕ} {n : ℕ}

theorem new_denotes : new.Denotes ∅ where
  stores := ⟨[], new_stores, Nat.zero_le _, fun i => by simp [wordsBit]⟩
  below := by simp

theorem le_missingbits {ws : List Word} (covered : b.sizeinbits ≤ 32 * ws.length) :
    n ≤ 32 * ws.length + b.missingbits n := by
  simp only [missingbits]
  split_ifs with part less <;> simp only [wordinbits] at * <;> omega

/-- Padding adds words of zeros, enough of them for the new size. -/
theorem padWithZeroes_stores {ws : List Word} (h : b.Stores ws) (more : b.sizeinbits < n)
    (covered : b.sizeinbits ≤ 32 * ws.length) : ∃ k,
    (b.padWithZeroes n).Stores (ws ++ List.replicate k 0) ∧ (b.padWithZeroes n).sizeinbits = n ∧
      n ≤ 32 * (ws.length + k) := by
  have enough := le_missingbits (n := n) covered
  have added : ∀ k, ((b.addStreamOfEmptyWords false k).setSizeInBits n).Stores
      (ws ++ List.replicate k 0) := fun k =>
    setSizeInBits_stores (addStreamOfEmptyWords_stores h) n
  simp only [padWithZeroes, if_neg (not_le.mpr more)]
  split_ifs with some part
  · exact ⟨_, added _, rfl, by rw [wordinbits]; omega⟩
  · exact ⟨_, added _, rfl, by rw [wordinbits] at *; omega⟩
  · have none : (b.setSizeInBits n).Stores (ws ++ List.replicate 0 0) := by
      rw [List.replicate_zero, List.append_nil]
      exact setSizeInBits_stores h n
    exact ⟨0, none, rfl, by omega⟩

/-- Padding does not change the set. -/
theorem Denotes.padWithZeroes (h : b.Denotes s) (more : b.sizeinbits < n) :
    (b.padWithZeroes n).Denotes s ∧ (b.padWithZeroes n).sizeinbits = n := by
  obtain ⟨ws, stored, covered, members⟩ := h.stores
  obtain ⟨k, padded, size, enough⟩ := padWithZeroes_stores stored more covered
  refine ⟨⟨⟨_, padded, ?_, fun i => ?_⟩, fun i hi => ?_⟩, size⟩
  · rw [size, List.length_append, List.length_replicate]
    exact enough
  · rw [members, wordsBit_append_zeros]
  · rw [size]
    exact (h.below i hi).trans more

section Size

theorem sizeinbits_pushRun (v : Bool) (w : Word) : (b.pushRun v w).sizeinbits = b.sizeinbits := by
  unfold pushRun
  split_ifs <;> rfl

theorem sizeinbits_pushRuns (v : Bool) (n : ℕ) : (b.pushRuns v n).sizeinbits = b.sizeinbits := by
  induction n, b using pushRuns.induct v with
  | case1 n b many ih => rw [pushRuns, if_pos many, ih, sizeinbits_pushRun]
  | case2 n b few some => rw [pushRuns, if_neg few, if_pos some, sizeinbits_pushRun]
  | case3 n b few none => rw [pushRuns, if_neg few, if_neg none]

theorem sizeinbits_openRun (v : Bool) : (b.openRun v).sizeinbits = b.sizeinbits := by
  unfold openRun
  split_ifs <;> rfl

theorem sizeinbits_fastaddStreamOfEmptyWords (v : Bool) (n : ℕ) :
    (b.fastaddStreamOfEmptyWords v n).sizeinbits = b.sizeinbits :=
  (sizeinbits_pushRuns ..).trans (sizeinbits_openRun v)

theorem sizeinbits_addLiteralWord (w : Word) : (b.addLiteralWord w).sizeinbits = b.sizeinbits := by
  simp only [addLiteralWord]
  split_ifs <;> rfl

end Size

theorem wordsBit_singleton {i j : ℕ} :
    wordsBit [(1 : Word) <<< (i % 32)] j = true ↔ j = i % 32 := by
  by_cases h : j < 32
  · have zero : j / 32 = 0 := by omega
    have same : j % 32 = j := by omega
    have inside : j - i % 32 < 32 := by omega
    simp only [wordsBit, zero, same, List.getD_cons_zero, BitVec.getLsbD_shiftLeft,
      one_getLsbD _ inside, h, decide_true, Bool.true_and, Bool.and_eq_true, Bool.not_eq_true',
      decide_eq_false_iff_not, decide_eq_true_eq]
    omega
  · rw [wordsBit_of_le (by simpa using h)]
    simp only [Bool.false_eq_true, false_iff]
    omega

/-- One bit of a new array. -/
theorem set_denotes (i : ℕ) : (new.set i).Denotes {i} := by
  have first : ¬ i < new.sizeinbits := Nat.not_lt_zero i
  have dist : (i + wordinbits) / wordinbits - (new.sizeinbits + wordinbits - 1) / wordinbits =
      i / 32 + 1 := by
    change (i + 32) / 32 - (0 + 32 - 1) / 32 = _
    omega
  have sized : (new.setSizeInBits (i + 1)).Stores [] := setSizeInBits_stores new_stores (i + 1)
  have stored : (new.set i).Stores (List.replicate (i / 32) 0 ++ [(1 : Word) <<< (i % 32)]) := by
    simp only [Bitmap.set, dist, if_neg first, Nat.add_sub_cancel]
    rw [if_pos (Nat.succ_pos _)]
    refine addLiteralWord_stores ?_
    split_ifs with zeros
    · exact fastaddStreamOfEmptyWords_stores sized
    · have none : i / 32 = 0 := by omega
      rw [none]
      exact sized
  have size : (new.set i).sizeinbits = i + 1 := by
    simp only [Bitmap.set, dist, if_neg first, Nat.add_sub_cancel]
    rw [if_pos (Nat.succ_pos _), sizeinbits_addLiteralWord]
    split_ifs
    · exact sizeinbits_fastaddStreamOfEmptyWords ..
    · rfl
  refine ⟨⟨_, stored, ?_, fun j => ?_⟩, fun j hj => ?_⟩
  · rw [size, List.length_append, List.length_replicate, List.length_singleton]
    omega
  · by_cases before : j < 32 * (i / 32)
    · rw [wordsBit_append_left (by simpa using before), wordsBit_zeros, Finset.mem_singleton]
      simp only [Bool.false_eq_true, iff_false]
      omega
    · rw [wordsBit_append_right (by simpa using before), wordsBit_singleton, Finset.mem_singleton,
        List.length_replicate]
      omega
  · rw [size, Finset.mem_singleton.mp hj]
    exact Nat.lt_succ_self i

end Denotes

end Bitmap

end LibdftDr
