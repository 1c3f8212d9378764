import LibdftDr.Compat
import Mathlib.Data.Nat.Bitwise

/-!
# Running length words

A marker word of a compressed bitmap packs the bit that is repeated, in bit 0, the number of
words it fills, in the next 16 bits, and the number of literal words that follow, in the upper 15.
`marker` is the word with given fields; the accessors read and write the fields of such a word.
-/
namespace LibdftDr

/-- `uword` of `EWAHBoolArray<uint32_t>`. -/
abbrev Word := BitVec 32

namespace RunningLengthWord

def runninglengthbits : ℕ := 16
def literalbits : ℕ := 15
def largestliteralcount : Word := ((1 : Word) <<< literalbits) - 1
def largestrunninglengthcount : Word := ((1 : Word) <<< runninglengthbits) - 1
def shiftedlargestrunninglengthcount : Word := largestrunninglengthcount <<< 1
def notshiftedlargestrunninglengthcount : Word := ~~~shiftedlargestrunninglengthcount
def runninglengthplusrunningbit : Word := ((1 : Word) <<< (runninglengthbits + 1)) - 1
def notrunninglengthplusrunningbit : Word := ~~~runninglengthplusrunningbit

def getRunningBit (data : Word) : Bool := data &&& 1 != 0

def getRunningLength (data : Word) : Word := (data >>> 1) &&& largestrunninglengthcount

def getNumberOfLiteralWords (data : Word) : Word := data >>> (1 + runninglengthbits)

def size (data : Word) : Word := getRunningLength data + getNumberOfLiteralWords data

def setRunningBit (data : Word) (b : Bool) : Word := if b then data ||| 1 else data &&& ~~~1

def setRunningLength (data l : Word) : Word :=
  (data ||| shiftedlargestrunninglengthcount) &&& (l <<< 1 ||| notshiftedlargestrunninglengthcount)

def setNumberOfLiteralWords (data l : Word) : Word :=
  (data ||| notrunninglengthplusrunningbit) &&&
    (l <<< (runninglengthbits + 1) ||| runninglengthplusrunningbit)

end RunningLengthWord

open RunningLengthWord

/-- The marker of a run of `run` words of `bit` before `lits` literal words. -/
def marker (bit : Bool) (run lits : ℕ) : Word :=
  BitVec.ofNat 15 lits ++ BitVec.ofNat 16 run ++ BitVec.ofBool bit

section Masks

theorem largestliteralcount_eq : largestliteralcount = BitVec.ofNat 32 32767 := by decide

theorem largestrunninglengthcount_eq :
    largestrunninglengthcount = BitVec.ofNat 32 65535 := by decide

theorem one_getLsbD : ∀ i < 32, (1 : Word).getLsbD i = decide (i = 0) := by decide

theorem largestrunninglengthcount_getLsbD :
    ∀ i < 32, largestrunninglengthcount.getLsbD i = decide (i < 16) := by decide

theorem shiftedlargestrunninglengthcount_getLsbD :
    ∀ i < 32, shiftedlargestrunninglengthcount.getLsbD i = decide (1 ≤ i ∧ i < 17) := by decide

theorem runninglengthplusrunningbit_getLsbD :
    ∀ i < 32, runninglengthplusrunningbit.getLsbD i = decide (i < 17) := by decide

end Masks

section Fields

variable {bit : Bool} {run lits : ℕ}

theorem marker_getLsbD (i : ℕ) : (marker bit run lits).getLsbD i =
    if i = 0 then bit else if i < 17 then run.testBit (i - 1)
    else decide (i < 32) && lits.testBit (i - 17) := by
  unfold marker
  simp only [BitVec.getLsbD_append, BitVec.getLsbD_ofNat, BitVec.getLsbD_ofBool]
  by_cases zero : i = 0
  · simp [zero]
  have pos : ¬ i < 1 := by omega
  by_cases low : i < 17
  · have : i - 1 < 16 := by omega
    simp [zero, low, this]
  · have above : ¬ i - 1 < 16 := by omega
    have shift : i - 1 - 16 = i - 17 := by omega
    have bound : i - 17 < 15 ↔ i < 32 := by omega
    simp [zero, low, above, shift, bound]

theorem testBit_of_lt {n k i : ℕ} (h : n < 2 ^ k) (hi : k ≤ i) : n.testBit i = false :=
  Nat.testBit_lt_two_pow (h.trans_le (Nat.pow_le_pow_right (by decide) hi))

@[simp] theorem getRunningBit_marker : getRunningBit (marker bit run lits) = bit := by
  have only : marker bit run lits &&& 1 = if bit then 1 else 0 := by
    refine BitVec.eq_of_getLsbD_eq fun i hi => ?_
    rw [BitVec.getLsbD_and, one_getLsbD i hi, marker_getLsbD]
    cases bit <;> by_cases zero : i = 0 <;> simp [zero]
  unfold getRunningBit
  rw [only]
  cases bit <;> decide

theorem getRunningLength_marker (small : run < 2 ^ 16) :
    getRunningLength (marker bit run lits) = BitVec.ofNat 32 run := by
  refine BitVec.eq_of_getLsbD_eq fun i hi => ?_
  rw [getRunningLength, BitVec.getLsbD_and, largestrunninglengthcount_getLsbD i hi,
    BitVec.getLsbD_ushiftRight, marker_getLsbD, BitVec.getLsbD_ofNat]
  by_cases low : i < 16
  · have : 1 + i < 17 := by omega
    simp [low, this, hi]
  · simp [low, testBit_of_lt small (not_lt.mp low)]

theorem getNumberOfLiteralWords_marker (small : lits < 2 ^ 15) :
    getNumberOfLiteralWords (marker bit run lits) = BitVec.ofNat 32 lits := by
  refine BitVec.eq_of_getLsbD_eq fun i hi => ?_
  rw [getNumberOfLiteralWords, BitVec.getLsbD_ushiftRight, marker_getLsbD, BitVec.getLsbD_ofNat]
  have above : ¬ 1 + runninglengthbits + i < 17 := by rw [runninglengthbits]; omega
  have shift : 1 + runninglengthbits + i - 17 = i := by rw [runninglengthbits]; omega
  by_cases low : i < 15
  · have : 1 + runninglengthbits + i < 32 := by rw [runninglengthbits]; omega
    simp [above, shift, this, hi]
  · simp [above, shift, testBit_of_lt small (not_lt.mp low)]

theorem size_marker (run_small : run < 2 ^ 16) (lits_small : lits < 2 ^ 15) :
    size (marker bit run lits) = BitVec.ofNat 32 (run + lits) := by
  rw [size, getRunningLength_marker run_small, getNumberOfLiteralWords_marker lits_small,
    BitVec.ofNat_add]

theorem setRunningBit_marker (b : Bool) :
    setRunningBit (marker bit run lits) b = marker b run lits := by
  refine BitVec.eq_of_getLsbD_eq fun i hi => ?_
  unfold setRunningBit
  cases b with
  | true =>
    rw [if_pos rfl, BitVec.getLsbD_or, one_getLsbD i hi, marker_getLsbD, marker_getLsbD]
    by_cases zero : i = 0 <;> simp [zero]
  | false =>
    rw [if_neg (by decide), BitVec.getLsbD_and, BitVec.getLsbD_not, one_getLsbD i hi,
      marker_getLsbD, marker_getLsbD]
    by_cases zero : i = 0 <;> simp [zero, hi]

theorem setRunningLength_marker (l : ℕ) :
    setRunningLength (marker bit run lits) (BitVec.ofNat 32 l) = marker bit l lits := by
  refine BitVec.eq_of_getLsbD_eq fun i hi => ?_
  rw [setRunningLength, notshiftedlargestrunninglengthcount, BitVec.getLsbD_and, BitVec.getLsbD_or,
    BitVec.getLsbD_or, BitVec.getLsbD_not, shiftedlargestrunninglengthcount_getLsbD i hi,
    BitVec.getLsbD_shiftLeft, BitVec.getLsbD_ofNat, marker_getLsbD, marker_getLsbD]
  by_cases zero : i = 0
  · simp [zero]
  by_cases low : i < 17
  · have one : 1 ≤ i := by omega
    have : i - 1 < 32 := by omega
    simp [zero, low, one, hi, this]
  · simp [zero, low, hi]

theorem setNumberOfLiteralWords_marker (l : ℕ) :
    setNumberOfLiteralWords (marker bit run lits) (BitVec.ofNat 32 l) = marker bit run l := by
  refine BitVec.eq_of_getLsbD_eq fun i hi => ?_
  rw [setNumberOfLiteralWords, notrunninglengthplusrunningbit, BitVec.getLsbD_and,
    BitVec.getLsbD_or, BitVec.getLsbD_or, BitVec.getLsbD_not,
    runninglengthplusrunningbit_getLsbD i hi, BitVec.getLsbD_shiftLeft, BitVec.getLsbD_ofNat,
    marker_getLsbD, marker_getLsbD, runninglengthbits]
  by_cases low : i < 17
  · simp [low, hi]
  · have zero : i ≠ 0 := by omega
    have : i - 17 < 32 := by omega
    simp [zero, low, hi, this]

/-- A word of zeros is an empty marker. -/
theorem zero_eq_marker : (0 : Word) = marker false 0 0 := by decide

theorem getNumberOfLiteralWords_zero : getNumberOfLiteralWords 0 = 0 := by decide

end Fields

end LibdftDr
