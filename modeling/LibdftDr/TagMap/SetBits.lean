import LibdftDr.TagMap.Merging
import Mathlib.Algebra.BigOperators.Group.List.Basic
import Mathlib.Data.Finset.Sort

/-!
# The members of a bitmap

The forward iterator goes from set bit to set bit: through a run of ones bit by bit, over a run
of zeros at once, and inside a literal word by its trailing zeros. `advanceToNextSetBit` finds
the least set bit from its position on, so the iterator yields the members in ascending order,
each once; `numberOfOnes` is how many there are.
-/
namespace LibdftDr
open Library RunningLengthWord

def countOnes (w : Word) : ℕ := (List.range 32).countP w.getLsbD

/-- 32 for a word of zeros. -/
def numberOfTrailingZeros (w : Word) : ℕ := (List.range 32).findIdx w.getLsbD

namespace Bitmap

/-- The loop of `numberOfOnes` from a marker on. -/
def onesFrom (buffer : List Word) (pointer tot : ℕ) : ℕ :=
  if pointer < buffer.length then
    let rlw := buffer.getD pointer 0
    let tot := if getRunningBit rlw then tot + (getRunningLength rlw).toNat * wordinbits else tot
    let literals := (List.range (getNumberOfLiteralWords rlw).toNat).map fun k =>
      countOnes (buffer.getD (pointer + 1 + k) 0)
    onesFrom buffer (pointer + 1 + (getNumberOfLiteralWords rlw).toNat) (tot + literals.sum)
  else tot
termination_by buffer.length - pointer

def numberOfOnes (b : Bitmap) : ℕ := onesFrom b.buffer 0 0

end Bitmap

/-- `EWAHBoolArraySetBitForwardIterator`, without the vector that it goes over. -/
structure SetBitIterator where
  mpointer : ℕ
  offsetofpreviousrun : ℕ
  currentrunoffset : ℕ
  rlw : Word

namespace SetBitIterator

/-- The position of the set bit. -/
def position (it : SetBitIterator) : ℕ := it.currentrunoffset + it.offsetofpreviousrun

/-- The end of the run and the literal words of the segment, in bits. -/
def runBits (it : SetBitIterator) : ℕ := (getRunningLength it.rlw).toNat * 32

def literalWords (it : SetBitIterator) : ℕ := (getNumberOfLiteralWords it.rlw).toNat

/-- The literal word of a position, and the place in it. -/
def indexoflitword (it : SetBitIterator) (currentrunoffset : ℕ) : ℕ :=
  (currentrunoffset - it.runBits) / 32

def tinwordpointer (it : SetBitIterator) (currentrunoffset : ℕ) : ℕ :=
  (currentrunoffset - it.runBits) % 32

def modcurrentword (buffer : List Word) (it : SetBitIterator) (currentrunoffset : ℕ) : Word :=
  buffer.getD (it.mpointer + 1 + it.indexoflitword currentrunoffset) 0 >>>
    it.tinwordpointer currentrunoffset

/-- The loop over the literal words: whether one of their bits is set at or after
`currentrunoffset`, and the first such bit, or the end of the segment. -/
def searchLiterals (buffer : List Word) (it : SetBitIterator) (currentrunoffset : ℕ) : Bool × ℕ :=
  if it.indexoflitword currentrunoffset ≥ it.literalWords then (false, currentrunoffset)
  else if it.modcurrentword buffer currentrunoffset ≠ 0 then
    (true, currentrunoffset + numberOfTrailingZeros (it.modcurrentword buffer currentrunoffset))
  else searchLiterals buffer it (currentrunoffset + (32 - it.tinwordpointer currentrunoffset))
termination_by it.runBits + 32 * it.literalWords - currentrunoffset
decreasing_by
  simp only [indexoflitword, tinwordpointer] at *
  omega

def advanceToNextRun (buffer : List Word) (it : SetBitIterator) : SetBitIterator :=
  let mpointer := it.mpointer + (1 + it.literalWords)
  { mpointer := mpointer
    offsetofpreviousrun := it.offsetofpreviousrun + it.currentrunoffset
    currentrunoffset := 0
    rlw := if mpointer < buffer.length then buffer.getD mpointer 0 else it.rlw }

def setOffset (it : SetBitIterator) (currentrunoffset : ℕ) : SetBitIterator :=
  { it with currentrunoffset := currentrunoffset }

/-- A run of zeros is skipped. -/
def skipRun (it : SetBitIterator) : ℕ :=
  if it.currentrunoffset < it.runBits then it.runBits else it.currentrunoffset

def advanceToNextSetBit (buffer : List Word) (it : SetBitIterator) : SetBitIterator :=
  if it.mpointer ≥ buffer.length then it
  else if it.currentrunoffset < it.runBits ∧ getRunningBit it.rlw then it
  else if (it.searchLiterals buffer it.skipRun).1 then
    it.setOffset (it.searchLiterals buffer it.skipRun).2
  else
    advanceToNextSetBit buffer
      ((it.setOffset (it.searchLiterals buffer it.skipRun).2).advanceToNextRun buffer)
termination_by buffer.length - it.mpointer
decreasing_by
  simp only [advanceToNextRun, setOffset]
  omega

/-- The iterator on the first set bit; behind the last one its pointer is the size of the
vector. -/
def first (buffer : List Word) : SetBitIterator :=
  let it : SetBitIterator :=
    { mpointer := 0, offsetofpreviousrun := 0, currentrunoffset := 0, rlw := buffer.getD 0 0 }
  it.advanceToNextSetBit buffer

def next (buffer : List Word) (it : SetBitIterator) : SetBitIterator :=
  (it.setOffset (it.currentrunoffset + 1)).advanceToNextSetBit buffer

/-! ## The iterator moves on -/

section Progress

variable {buffer : List Word} {it : SetBitIterator} {w : Word} {cur j : ℕ}

theorem numberOfTrailingZeros_spec (h : w ≠ 0) : w.getLsbD (numberOfTrailingZeros w) = true ∧
    ∀ j < numberOfTrailingZeros w, w.getLsbD j = false := by
  have some : ∃ j ∈ List.range 32, w.getLsbD j = true := by
    by_contra none
    refine h (BitVec.eq_of_getLsbD_eq fun j hj => ?_)
    refine Eq.trans ?_ BitVec.getLsbD_zero.symm
    exact Bool.eq_false_of_not_eq_true fun set => none ⟨j, List.mem_range.mpr hj, set⟩
  have lt : (List.range 32).findIdx w.getLsbD < (List.range 32).length :=
    List.findIdx_lt_length.mpr some
  refine ⟨?_, fun j hj => ?_⟩
  · have found := List.findIdx_getElem (w := lt)
    rwa [List.getElem_range] at found
  · have before := List.not_of_lt_findIdx hj
    rwa [List.getElem_range] at before

/-- A set bit of a shifted word is one of the word. -/
theorem shifted_lt {t : ℕ} (h : w >>> t ≠ 0) : t + numberOfTrailingZeros (w >>> t) < 32 := by
  have set := (numberOfTrailingZeros_spec h).1
  rw [BitVec.getLsbD_ushiftRight] at set
  exact BitVec.lt_of_getLsbD set

theorem searchLiterals_bounds : cur ≤ (searchLiterals buffer it cur).2 ∧
    ((searchLiterals buffer it cur).1 = true →
      (searchLiterals buffer it cur).2 < it.runBits + 32 * it.literalWords) := by
  induction cur using searchLiterals.induct buffer it with
  | case1 cur past =>
    rw [searchLiterals, if_pos past]
    exact ⟨le_rfl, fun h => absurd h Bool.false_ne_true⟩
  | case2 cur inside some =>
    have lt := shifted_lt some
    rw [searchLiterals, if_neg inside, if_pos some]
    simp only [indexoflitword, tinwordpointer, modcurrentword] at *
    exact ⟨Nat.le_add_right .., fun _ => by omega⟩
  | case3 cur inside none ih =>
    rw [searchLiterals, if_neg inside, if_neg none]
    exact ⟨(Nat.le_add_right ..).trans ih.1, ih.2⟩

/-- It stays in its segment, at a bit of that, or it goes on to a later one. -/
structure MovesTo (buffer : List Word) (it it' : SetBitIterator) : Prop where
  forward : it.mpointer ≤ it'.mpointer
  within : it'.mpointer = it.mpointer → it'.rlw = it.rlw ∧
    it.currentrunoffset ≤ it'.currentrunoffset ∧
    (it.mpointer < buffer.length → it'.currentrunoffset < it.runBits + 32 * it.literalWords)

theorem le_skipRun : it.currentrunoffset ≤ it.skipRun := by
  unfold skipRun
  split_ifs with h
  · exact h.le
  · exact le_rfl

theorem advance_moves : it.MovesTo buffer (it.advanceToNextSetBit buffer) := by
  induction it using advanceToNextSetBit.induct buffer with
  | case1 it past =>
    rw [advanceToNextSetBit, if_pos past]
    exact ⟨le_rfl, fun _ => ⟨rfl, le_rfl, fun inside => absurd inside (not_lt.mpr past)⟩⟩
  | case2 it inside ones =>
    rw [advanceToNextSetBit, if_neg inside, if_pos ones]
    exact ⟨le_rfl, fun _ => ⟨rfl, le_rfl, fun _ => by omega⟩⟩
  | case3 it inside zeros found =>
    rw [advanceToNextSetBit, if_neg inside, if_neg zeros, if_pos found]
    have bounds : it.skipRun ≤ (it.searchLiterals buffer it.skipRun).2 ∧ _ :=
      searchLiterals_bounds
    exact ⟨le_rfl, fun _ => ⟨rfl, le_skipRun.trans bounds.1, fun _ => bounds.2 found⟩⟩
  | case4 it inside zeros none ih =>
    rw [advanceToNextSetBit, if_neg inside, if_neg zeros, if_neg none]
    have beyond : it.mpointer < it.mpointer + (1 + it.literalWords) := by omega
    exact ⟨beyond.le.trans ih.forward, fun e => absurd e (beyond.trans_le ih.forward).ne'⟩

end Progress

/-- The bits that a loop from `it` to the end goes through. -/
def positionsFrom (buffer : List Word) (it : SetBitIterator) : List ℕ :=
  if it.mpointer ≥ buffer.length then []
  else it.position :: positionsFrom buffer (it.next buffer)
termination_by (buffer.length - it.mpointer,
  it.runBits + 32 * it.literalWords - it.currentrunoffset)
decreasing_by
  rename_i inside
  have moves : (it.setOffset (it.currentrunoffset + 1)).MovesTo buffer (it.next buffer) :=
    advance_moves
  have here : it.mpointer < buffer.length := not_le.mp inside
  by_cases same : (it.next buffer).mpointer = it.mpointer
  · obtain ⟨rlw, le, lt⟩ := moves.within same
    have lt := lt here
    have run : (it.next buffer).runBits = it.runBits := by
      rw [runBits, rlw]
      rfl
    have lits : (it.next buffer).literalWords = it.literalWords := by
      rw [literalWords, rlw]
      rfl
    rw [same, run, lits]
    refine Prod.Lex.right _ ?_
    change it.currentrunoffset + 1 ≤ _ at le
    change _ < it.runBits + 32 * it.literalWords at lt
    omega
  · have forward : it.mpointer ≤ (it.next buffer).mpointer := moves.forward
    exact Prod.Lex.left _ _ (by omega)

end SetBitIterator

/-- The members in the order of the iterator. -/
def Bitmap.setBits (b : Bitmap) : List ℕ :=
  (SetBitIterator.first b.buffer).positionsFrom b.buffer

/-! ## Where the iterator is -/

section Segments

variable {s : Seg} {before rest segs : List Seg} {c : ℕ}

theorem length_values_words (s : Seg) : (s.values cleanWord).length = s.size :=
  Segment.length_values cleanWord

theorem wordsBit_segment (h : c < 32 * s.size) :
    wordsBit (Seg.words (before ++ s :: rest)) (c + 32 * (Seg.words before).length) =
      wordsBit (s.values cleanWord) c := by
  have inside : c < 32 * (s.values cleanWord).length := by rwa [length_values_words]
  rw [Seg.words, Segment.all_append, Segment.all_cons, wordsBit_append_right (Nat.le_add_left ..),
    Nat.add_sub_cancel, wordsBit_append_left inside]

theorem wordsBit_clean {n : ℕ} {v : Bool} (h : c < 32 * n) :
    wordsBit (List.replicate n (cleanWord v)) c = v := by
  have inside : c / 32 < n := by omega
  have place : c % 32 < 32 := Nat.mod_lt _ (by decide)
  rw [wordsBit, List.getD_eq_getElem?_getD, List.getElem?_replicate, if_pos inside]
  cases v with
  | false => exact BitVec.getLsbD_zero
  | true => exact (BitVec.getLsbD_allOnes ..).trans (decide_eq_true place)

theorem wordsBit_run (h : c < 32 * s.run) : wordsBit (s.values cleanWord) c = s.fill := by
  rw [Segment.values, wordsBit_append_left (by rwa [List.length_replicate]), wordsBit_clean h]

theorem wordsBit_lits (h : 32 * s.run ≤ c) :
    wordsBit (s.values cleanWord) c = wordsBit s.lits (c - 32 * s.run) := by
  rw [Segment.values, wordsBit_append_right (by rwa [List.length_replicate]),
    List.length_replicate]

end Segments

namespace Seg.Fits

variable {s : Seg} (h : Seg.Fits s)
include h

theorem toNat_run : (getRunningLength (marker s.fill s.run s.lits.length)).toNat = s.run := by
  have := h.run
  rw [getRunningLength_marker h.run, BitVec.toNat_ofNat]
  omega

theorem toNat_lits :
    (getNumberOfLiteralWords (marker s.fill s.run s.lits.length)).toNat = s.lits.length := by
  have := h.lits
  rw [getNumberOfLiteralWords_marker h.lits, BitVec.toNat_ofNat]
  omega

end Seg.Fits

/-- The iterator is at offset `currentrunoffset` of the segment `s`. -/
structure SetBitIterator.In (it : SetBitIterator) (segs before : List Seg) (s : Seg)
    (rest : List Seg) : Prop where
  segs : segs = before ++ s :: rest
  mpointer : it.mpointer = (Seg.encodeAll before).length
  offset : it.offsetofpreviousrun = 32 * (Seg.words before).length
  rlw : it.rlw = marker s.fill s.run s.lits.length
  fits : Seg.Fits s
  le : it.currentrunoffset ≤ 32 * s.size

namespace SetBitIterator

section In

variable {it : SetBitIterator} {segs before rest : List Seg} {s : Seg} {cur c : ℕ}

namespace In

theorem runBits (h : it.In segs before s rest) : it.runBits = 32 * s.run := by
  rw [SetBitIterator.runBits, h.rlw, h.fits.toNat_run, Nat.mul_comm]

theorem literalWords (h : it.In segs before s rest) : it.literalWords = s.lits.length := by
  rw [SetBitIterator.literalWords, h.rlw, h.fits.toNat_lits]

theorem mpointer_lt (h : it.In segs before s rest) :
    it.mpointer < (Seg.encodeAll segs).length := by
  rw [h.mpointer, h.segs]
  simp [Seg.encodeAll, Seg.encode]

theorem word_eq (h : it.In segs before s rest) {k : ℕ} (hk : k < s.lits.length) :
    (Seg.encodeAll segs).getD (it.mpointer + 1 + k) 0 = s.lits.getD k 0 := by
  have skip : it.mpointer + 1 + k - (Seg.encodeAll before).length = k + 1 := by
    rw [h.mpointer]
    omega
  have split : Seg.encodeAll segs = Seg.encodeAll before ++
      (marker s.fill s.run s.lits.length :: (s.lits ++ Seg.encodeAll rest)) := by
    rw [h.segs]
    simp [Seg.encodeAll, Seg.encode]
  rw [split, List.getD_append_right _ _ _ _ (by rw [h.mpointer]; omega), skip, List.getD_cons_succ,
    List.getD_append _ _ _ _ hk]

/-- The bits of the word at hand from the position on. -/
theorem wordsBit_eq (h : it.In segs before s rest) (start : 32 * s.run ≤ cur)
    (inside : it.indexoflitword cur < it.literalWords) (hc : c < 32 - it.tinwordpointer cur) :
    wordsBit (s.values cleanWord) (cur + c) =
      (it.modcurrentword (Seg.encodeAll segs) cur).getLsbD c := by
  rw [h.literalWords] at inside
  have index : (cur + c - 32 * s.run) / 32 = it.indexoflitword cur := by
    simp only [indexoflitword, tinwordpointer, h.runBits] at *
    omega
  have place : (cur + c - 32 * s.run) % 32 = it.tinwordpointer cur + c := by
    simp only [indexoflitword, tinwordpointer, h.runBits] at *
    omega
  rw [wordsBit_lits (by omega), wordsBit, index, place, modcurrentword, h.word_eq inside,
    BitVec.getLsbD_ushiftRight]

end In

/-- What a search from `cur` on comes to in the segment. -/
structure Finds (s : Seg) (cur : ℕ) (found : Bool × ℕ) : Prop where
  le : cur ≤ found.2
  none : ∀ c, cur ≤ c → c < found.2 → wordsBit (s.values cleanWord) c = false
  hit : found.1 = true → found.2 < 32 * s.size ∧ wordsBit (s.values cleanWord) found.2 = true
  miss : found.1 = false → found.2 = 32 * s.size

theorem searchLiterals_finds (h : it.In segs before s rest) (start : 32 * s.run ≤ cur)
    (le : cur ≤ 32 * s.size) :
    Finds s cur (it.searchLiterals (Seg.encodeAll segs) cur) := by
  have size : s.size = s.run + s.lits.length := rfl
  have lits := h.literalWords
  have run := h.runBits
  induction cur using searchLiterals.induct (Seg.encodeAll segs) it with
  | case1 cur past =>
    rw [searchLiterals, if_pos past]
    refine ⟨le_rfl, fun c lo hi => absurd lo (by simpa using hi),
      fun h => absurd h Bool.false_ne_true, fun _ => ?_⟩
    rw [indexoflitword] at past
    change cur = _
    omega
  | case2 cur inside some =>
    have inside' := not_le.mp inside
    have lt := shifted_lt some
    obtain ⟨set, before⟩ := numberOfTrailingZeros_spec some
    rw [searchLiterals, if_neg inside, if_pos some]
    refine ⟨Nat.le_add_right .., fun c lo hi => ?_, fun _ => ⟨?_, ?_⟩, fun h =>
      absurd h.symm Bool.false_ne_true⟩
    · obtain ⟨d, rfl⟩ := Nat.exists_eq_add_of_le lo
      have near : d < numberOfTrailingZeros (it.modcurrentword (Seg.encodeAll segs) cur) := by
        simpa using hi
      rw [h.wordsBit_eq start inside' (by simp only [modcurrentword] at *; omega)]
      exact before d near
    · simp only [indexoflitword, tinwordpointer, modcurrentword] at *
      omega
    · rw [h.wordsBit_eq start inside' (by simp only [modcurrentword] at *; omega)]
      exact set
  | case3 cur inside none ih =>
    have inside' := not_le.mp inside
    have zero : it.modcurrentword (Seg.encodeAll segs) cur = 0 := not_not.mp none
    rw [searchLiterals, if_neg inside, if_neg none]
    have finds := ih (by omega) (by simp only [indexoflitword, tinwordpointer] at *; omega)
    refine ⟨(Nat.le_add_right ..).trans finds.le, fun c lo hi => ?_, finds.hit, finds.miss⟩
    by_cases near : c < cur + (32 - it.tinwordpointer cur)
    · obtain ⟨d, rfl⟩ := Nat.exists_eq_add_of_le lo
      rw [h.wordsBit_eq start inside' (by omega), zero]
      exact BitVec.getLsbD_zero
    · exact finds.none c (not_lt.mp near) hi

/-- The iterator is on the least set bit at or after `lo`, or at the end if there is none. -/
inductive On (segs : List Seg) (lo : ℕ) (it : SetBitIterator) : Prop
  | bit (init : List Seg) (cur : Seg) (tail : List Seg) (inside : it.In segs init cur tail)
    (le : lo ≤ it.position) (within : it.currentrunoffset < 32 * cur.size)
    (set : wordsBit (Seg.words segs) it.position = true)
    (none : ∀ i, lo ≤ i → i < it.position → wordsBit (Seg.words segs) i = false)
  | past (at_end : it.mpointer = (Seg.encodeAll segs).length)
    (none : ∀ i, lo ≤ i → wordsBit (Seg.words segs) i = false)

theorem On.mono {lo lo' : ℕ} (h : On segs lo' it) (le : lo ≤ lo')
    (none : ∀ i, lo ≤ i → i < lo' → wordsBit (Seg.words segs) i = false) : On segs lo it := by
  have skip : ∀ i, lo ≤ i → (lo' ≤ i → wordsBit (Seg.words segs) i = false) →
      wordsBit (Seg.words segs) i = false := fun i lo above => by
    by_cases low : i < lo'
    · exact none i lo low
    · exact above (not_lt.mp low)
  cases h with
  | bit init cur tail inside le' within set none' =>
    exact .bit init cur tail inside (le.trans le') within set fun i lo hi =>
      skip i lo fun above => none' i above hi
  | past at_end none' => exact .past at_end fun i lo => skip i lo (none' i)

theorem In.position_eq (h : it.In segs before s rest) :
    it.position = it.currentrunoffset + 32 * (Seg.words before).length := by
  rw [position, h.offset]

theorem In.wordsBit_position (h : it.In segs before s rest) (hc : c < 32 * s.size) :
    wordsBit (Seg.words segs) (c + 32 * (Seg.words before).length) =
      wordsBit (s.values cleanWord) c := by
  rw [h.segs, wordsBit_segment hc]

/-- The iterator at another offset of its segment. -/
theorem In.setOffset (h : it.In segs before s rest) (hc : c ≤ 32 * s.size) :
    (it.setOffset c).In segs before s rest :=
  ⟨h.segs, h.mpointer, h.offset, h.rlw, h.fits, hc⟩

/-- Nothing is set between the position and the offset `c` of the segment. -/
theorem In.none_below (h : it.In segs before s rest) (hc : c ≤ 32 * s.size)
    (none : ∀ d, it.currentrunoffset ≤ d → d < c → wordsBit (s.values cleanWord) d = false) :
    ∀ i, it.position ≤ i → i < c + 32 * (Seg.words before).length →
      wordsBit (Seg.words segs) i = false := by
  intro i lo hi
  rw [h.position_eq] at lo
  obtain ⟨d, rfl⟩ : ∃ d, i = d + 32 * (Seg.words before).length :=
    ⟨i - 32 * (Seg.words before).length, by omega⟩
  rw [h.wordsBit_position (by omega)]
  exact none d (by omega) (by omega)

/-- The next segment, from its start. -/
theorem In.advanceToNextRun {t : Seg} (h : it.In segs before s (t :: rest))
    (whole : it.currentrunoffset = 32 * s.size) (fits : Seg.Fits t) :
    (it.advanceToNextRun (Seg.encodeAll segs)).In segs (before ++ [s]) t rest := by
  have segs' : segs = before ++ [s] ++ t :: rest := by simpa using h.segs
  have pointer : it.mpointer + (1 + it.literalWords) = (Seg.encodeAll (before ++ [s])).length := by
    rw [h.mpointer, h.literalWords]
    simp [Seg.encodeAll, Seg.encode]
    omega
  have here : it.mpointer + (1 + it.literalWords) < (Seg.encodeAll segs).length := by
    rw [pointer, segs']
    simp [Seg.encodeAll, Seg.encode]
  refine ⟨segs', pointer, ?_, ?_, fits, Nat.zero_le _⟩
  · change it.offsetofpreviousrun + it.currentrunoffset = _
    rw [h.offset, whole, Seg.words, Seg.words, Segment.all_append, Segment.all_cons,
      Segment.all_nil, List.append_nil, List.length_append, length_values_words]
    omega
  · simp only [SetBitIterator.advanceToNextRun, if_pos here]
    rw [pointer, segs']
    simp [Seg.encodeAll, Seg.encode]

/-- Bits of a run of zeros that is skipped are not set. -/
theorem In.none_skipped (h : it.In segs before s rest)
    (zeros : ¬ (it.currentrunoffset < it.runBits ∧ getRunningBit it.rlw = true)) :
    ∀ d, it.currentrunoffset ≤ d → d < it.skipRun → wordsBit (s.values cleanWord) d = false := by
  intro d lo hi
  unfold skipRun at hi
  split_ifs at hi with inRun
  · have fill : s.fill = false := by simpa [inRun, h.rlw] using zeros
    rw [wordsBit_run (h.runBits ▸ hi), fill]
  · exact absurd lo (not_le.mpr hi)

/-- What the iterator comes to in its own segment. -/
theorem In.search_finds (h : it.In segs before s rest)
    (zeros : ¬ (it.currentrunoffset < it.runBits ∧ getRunningBit it.rlw = true)) :
    Finds s it.currentrunoffset (it.searchLiterals (Seg.encodeAll segs) it.skipRun) := by
  have size : s.size = s.run + s.lits.length := rfl
  have le := h.le
  have run := h.runBits
  have start : 32 * s.run ≤ it.skipRun ∧ it.skipRun ≤ 32 * s.size := by
    unfold skipRun
    split_ifs <;> omega
  have finds := searchLiterals_finds h start.1 start.2
  refine ⟨le_skipRun.trans finds.le, fun d lo hi => ?_, finds.hit, finds.miss⟩
  by_cases skipped : d < it.skipRun
  · exact h.none_skipped zeros d lo skipped
  · exact finds.none d (not_lt.mp skipped) hi

theorem advance_on (h : it.In segs before s rest) (fits : ∀ t ∈ segs, Seg.Fits t) :
    On segs it.position (it.advanceToNextSetBit (Seg.encodeAll segs)) := by
  induction it using advanceToNextSetBit.induct (Seg.encodeAll segs) generalizing before s rest with
  | case1 it past => exact absurd h.mpointer_lt (not_lt.mpr past)
  | case2 it inside ones =>
    rw [advanceToNextSetBit, if_neg inside, if_pos ones]
    have run : it.currentrunoffset < 32 * s.run := h.runBits ▸ ones.1
    have size : s.size = s.run + s.lits.length := rfl
    refine .bit before s rest h le_rfl (by omega) ?_ fun i lo hi => absurd lo (not_le.mpr hi)
    rw [h.position_eq, h.wordsBit_position (by omega), wordsBit_run run]
    simpa [h.rlw] using ones.2
  | case3 it inside zeros found =>
    rw [advanceToNextSetBit, if_neg inside, if_neg zeros, if_pos found]
    have finds := h.search_finds zeros
    obtain ⟨within, set⟩ := finds.hit found
    have there := h.setOffset within.le
    refine .bit before s rest there ?_ within ?_ ?_
    · rw [there.position_eq, h.position_eq]
      exact Nat.add_le_add_right finds.le _
    · rw [there.position_eq]
      exact (h.wordsBit_position within).trans set
    · rw [there.position_eq]
      exact h.none_below within.le finds.none
  | case4 it inside zeros none ih =>
    rw [advanceToNextSetBit, if_neg inside, if_neg zeros, if_neg none]
    have finds := h.search_finds zeros
    have whole := finds.miss (Bool.eq_false_of_not_eq_true none)
    have below := h.none_below le_rfl fun d lo hi => finds.none d lo (hi.trans_eq whole.symm)
    simp only [whole] at ih ⊢
    have there : (it.setOffset (32 * s.size)).In segs before s rest := h.setOffset le_rfl
    cases rest with
    | nil =>
      have pointer : it.mpointer + (1 + it.literalWords) = (Seg.encodeAll segs).length := by
        rw [h.mpointer, h.literalWords, h.segs]
        simp [Seg.encodeAll, Seg.encode]
        omega
      have past : (advanceToNextRun (Seg.encodeAll segs) (it.setOffset (32 * s.size))).mpointer ≥
          (Seg.encodeAll segs).length := pointer.ge
      rw [advanceToNextSetBit, if_pos past]
      refine .past pointer fun i lo => ?_
      by_cases hi : i < 32 * s.size + 32 * (Seg.words before).length
      · exact below i lo hi
      · have total : (Seg.words segs).length = (Seg.words before).length + s.size := by
          simp [h.segs, Seg.words, Segment.all_append]
        exact wordsBit_of_le (by omega)
    | cons t rest =>
      have next := there.advanceToNextRun rfl (fits t (by simp [h.segs]))
      have position :
          (advanceToNextRun (Seg.encodeAll segs) (it.setOffset (32 * s.size))).position =
          32 * s.size + 32 * (Seg.words before).length := by
        change 0 + (it.offsetofpreviousrun + 32 * s.size) = _
        rw [h.offset]
        omega
      refine (ih next).mono ?_ (position ▸ below)
      rw [position, h.position_eq]
      exact Nat.add_le_add_right h.le _

/-- From a set bit on, the loop goes through all set bits in ascending order. -/
theorem positionsFrom_spec (fits : ∀ t ∈ segs, Seg.Fits t) {lo : ℕ} (h : On segs lo it) :
    (∀ i, i ∈ it.positionsFrom (Seg.encodeAll segs) ↔
      lo ≤ i ∧ wordsBit (Seg.words segs) i = true) ∧
    (it.positionsFrom (Seg.encodeAll segs)).Pairwise (· < ·) := by
  induction it using positionsFrom.induct (Seg.encodeAll segs) generalizing lo with
  | case1 it past =>
    rw [positionsFrom, if_pos past]
    cases h with
    | bit init cur tail inside => exact absurd inside.mpointer_lt (not_lt.mpr past)
    | past _ none =>
      refine ⟨fun i => iff_of_false List.not_mem_nil ?_, .nil⟩
      rintro ⟨lo, set⟩
      exact Bool.false_ne_true ((none i lo).symm.trans set)
  | case2 it inside ih =>
    rw [positionsFrom, if_neg inside]
    cases h with
    | past at_end => exact absurd at_end.ge inside
    | bit init cur tail here le within set none =>
      have moved : (it.setOffset (it.currentrunoffset + 1)).position = it.position + 1 := by
        change it.currentrunoffset + 1 + it.offsetofpreviousrun = _
        rw [position]
        omega
      have next : On segs (it.position + 1) (it.next (Seg.encodeAll segs)) :=
        moved ▸ advance_on (here.setOffset within) fits
      obtain ⟨members, ascending⟩ := ih next
      refine ⟨fun i => ?_, List.pairwise_cons.mpr ⟨fun i hi => ((members i).mp hi).1, ascending⟩⟩
      rw [List.mem_cons, members]
      constructor
      · rintro (rfl | ⟨above, set'⟩)
        · exact ⟨le, set⟩
        · exact ⟨by omega, set'⟩
      · rintro ⟨lo, set'⟩
        rcases Nat.lt_trichotomy i it.position with below | same | above
        · exact absurd ((none i lo below).symm.trans set') Bool.false_ne_true
        · exact .inl same
        · exact .inr ⟨above, set'⟩

end In

end SetBitIterator

/-! ## What the iterator and the count say of a bitmap -/

namespace Bitmap

variable {b : Bitmap} {s : Finset ℕ}

/-- The vector of a well-formed bitmap is that of its segments. -/
theorem Has.encodeAll {init : List Seg} {cur : Seg} (h : b.Has init cur) :
    b.buffer = Seg.encodeAll (init ++ [cur]) ∧ ∀ t ∈ init ++ [cur], Seg.Fits t := by
  refine ⟨by simp [h.buffer, Seg.encodeAll], fun t ht => ?_⟩
  rcases List.mem_append.mp ht with old | last
  · exact h.fits t old
  · exact List.mem_singleton.mp last ▸ h.fits_cur

/-- The iterator yields the members of the set, in ascending order. -/
theorem Denotes.setBits (h : b.Denotes s) :
    (∀ i, i ∈ b.setBits ↔ i ∈ s) ∧ b.setBits.Pairwise (· < ·) := by
  obtain ⟨_, ⟨init, cur, has, rfl⟩, -, members⟩ := h.stores
  obtain ⟨buffer, fits⟩ := has.encodeAll
  obtain ⟨t, rest, segs⟩ : ∃ t rest, init ++ [cur] = t :: rest :=
    List.exists_cons_of_ne_nil (by simp)
  rw [segs] at buffer fits members
  have start : SetBitIterator.In ⟨0, 0, 0, b.buffer.getD 0 0⟩ (t :: rest) [] t rest :=
    ⟨rfl, rfl, rfl, by simp [buffer, Seg.encodeAll, Seg.encode], fits t List.mem_cons_self,
      Nat.zero_le _⟩
  have first := SetBitIterator.advance_on start fits
  obtain ⟨all, ascending⟩ := SetBitIterator.positionsFrom_spec fits first
  rw [Bitmap.setBits, SetBitIterator.first, buffer]
  rw [buffer] at all ascending
  refine ⟨fun i => ?_, ascending⟩
  rw [members]
  exact (all i).trans ⟨fun g => g.2, fun g => ⟨Nat.zero_le _, g⟩⟩

/-! ## The count -/

theorem countP_words (ws : List Word) :
    (List.range (32 * ws.length)).countP (wordsBit ws) = (ws.map countOnes).sum := by
  induction ws with
  | nil => rfl
  | cons w ws ih =>
    have size : 32 * (w :: ws).length = 32 + 32 * ws.length := by
      rw [List.length_cons]
      omega
    have head : (List.range 32).countP (wordsBit (w :: ws)) = countOnes w := by
      refine List.countP_congr fun i hi => ?_
      have lt := List.mem_range.mp hi
      rw [wordsBit, Nat.div_eq_of_lt lt, Nat.mod_eq_of_lt lt, List.getD_cons_zero]
    have tail : (wordsBit (w :: ws) ∘ (32 + ·)) = wordsBit ws := by
      funext i
      have word : (32 + i) / 32 = i / 32 + 1 := by omega
      have place : (32 + i) % 32 = i % 32 := by omega
      rw [Function.comp_apply, wordsBit, word, place, List.getD_cons_succ, wordsBit]
    rw [size, List.range_add, List.countP_append, List.countP_map, head, tail, ih, List.map_cons,
      List.sum_cons]

theorem countOnes_clean (v : Bool) : countOnes (cleanWord v) = if v then 32 else 0 := by
  cases v <;> decide

/-- The ones of a segment, as the loop adds them up. -/
theorem sum_countOnes_values (t : Seg) : ((t.values cleanWord).map countOnes).sum =
    (if t.fill then t.run * 32 else 0) + (t.lits.map countOnes).sum := by
  have run : ((List.replicate t.run (cleanWord t.fill)).map countOnes).sum =
      if t.fill then t.run * 32 else 0 := by
    rw [List.map_replicate, List.sum_replicate, countOnes_clean]
    cases t.fill
    · exact Nat.mul_zero _
    · rfl
  rw [Segment.values, List.map_append, List.sum_append, run]

section Loop

variable {t : Seg} {pre post : List Word} {tot : ℕ}

theorem literals_eq :
    ((List.range t.lits.length).map fun k =>
      countOnes ((pre ++ (t.encode ++ post)).getD (pre.length + 1 + k) 0)) =
        t.lits.map countOnes := by
  refine List.ext_getElem (by simp) fun k hk hk' => ?_
  have word : k < t.lits.length := by simpa using hk'
  have skip : pre.length + 1 + k - pre.length = k + 1 := by omega
  rw [List.getElem_map, List.getElem_map, List.getElem_range,
    List.getD_append_right _ _ _ _ (by omega), skip, Seg.encode, List.cons_append,
    List.getD_cons_succ, List.getD_append _ _ _ _ word, List.getD_eq_getElem _ _ word]

/-- One segment of the loop. -/
theorem onesFrom_segment (fits : Seg.Fits t) :
    onesFrom (pre ++ (t.encode ++ post)) pre.length tot =
      onesFrom (pre ++ (t.encode ++ post)) (pre ++ t.encode).length
        (tot + ((t.values cleanWord).map countOnes).sum) := by
  have inside : pre.length < (pre ++ (t.encode ++ post)).length := by
    rw [List.length_append, List.length_append, Seg.encode, List.length_cons]
    omega
  have here : (pre ++ (t.encode ++ post)).getD pre.length 0 =
      marker t.fill t.run t.lits.length := by
    rw [List.getD_append_right _ _ _ _ le_rfl, Nat.sub_self, Seg.encode, List.cons_append,
      List.getD_cons_zero]
  have next : pre.length + 1 + t.lits.length = (pre ++ t.encode).length := by
    simp only [Seg.encode, List.length_append, List.length_cons]
    omega
  rw [onesFrom, if_pos inside]
  simp only [here, getRunningBit_marker, fits.toNat_run, fits.toNat_lits, literals_eq, next,
    wordinbits, sum_countOnes_values]
  congr 1
  split_ifs <;> omega

/-- The loop adds up the ones of the words that the segments from the pointer on stand for. -/
theorem onesFrom_encodeAll {segs : List Seg} (fits : ∀ t ∈ segs, Seg.Fits t) :
    onesFrom (pre ++ Seg.encodeAll segs) pre.length tot =
      tot + ((Seg.words segs).map countOnes).sum := by
  induction segs generalizing pre tot with
  | nil =>
    have past : ¬ pre.length < (pre ++ Seg.encodeAll []).length := by simp [Seg.encodeAll]
    rw [onesFrom, if_neg past]
    rfl
  | cons t segs ih =>
    have rest : pre ++ (t.encode ++ Seg.encodeAll segs) =
        (pre ++ t.encode) ++ Seg.encodeAll segs := (List.append_assoc ..).symm
    have vector : Seg.encodeAll (t :: segs) = t.encode ++ Seg.encodeAll segs := rfl
    have words : Seg.words (t :: segs) = t.values cleanWord ++ Seg.words segs := rfl
    rw [vector, onesFrom_segment (fits t List.mem_cons_self), rest,
      ih fun u hu => fits u (List.mem_cons_of_mem _ hu), words, List.map_append, List.sum_append,
      Nat.add_assoc]

end Loop

/-- The count is the size of the set. -/
theorem Denotes.numberOfOnes (h : b.Denotes s) : b.numberOfOnes = s.card := by
  obtain ⟨_, ⟨init, cur, has, rfl⟩, -, members⟩ := h.stores
  obtain ⟨buffer, fits⟩ := has.encodeAll
  have total : onesFrom ([] ++ Seg.encodeAll (init ++ [cur])) [].length 0 = _ :=
    onesFrom_encodeAll fits
  rw [List.nil_append, List.length_nil, ← buffer, Nat.zero_add, ← countP_words] at total
  have same : ((List.range (32 * (Seg.words (init ++ [cur])).length)).filter
      (wordsBit (Seg.words (init ++ [cur])))).toFinset = s := by
    ext i
    rw [List.mem_toFinset, List.mem_filter, List.mem_range, ← members]
    refine ⟨fun g => g.2, fun g => ⟨?_, g⟩⟩
    by_contra past
    exact Bool.false_ne_true ((wordsBit_of_le (not_lt.mp past)).symm.trans ((members i).mp g))
  rw [Bitmap.numberOfOnes, total, List.countP_eq_length_filter, ← same,
    List.toFinset_card_of_nodup (List.nodup_range.filter _)]

/-- The iterator yields the members in ascending order, each once, and the count is how many there
are, however the words are split into runs and literal words. -/
theorem enumerates (h : b.Denotes s) :
    b.setBits = s.sort (· ≤ ·) ∧ b.numberOfOnes = s.card := by
  obtain ⟨members, ascending⟩ := h.setBits
  refine ⟨ascending.eq_of_mem_iff s.sortedLT_sort.pairwise fun i => ?_, h.numberOfOnes⟩
  rw [members, Finset.mem_sort]

/-- Three positions, two of them in one word. -/
theorem enumerates_set : ∃ a b c d e f : Bitmap,
    (new.set 70).logicalor (new.set 3) = .ok (a, b, c) ∧ c.logicalor (new.set 71) = .ok (d, e, f) ∧
      f.setBits = [3, 70, 71] ∧ f.numberOfOnes = 3 := by
  obtain ⟨c, first, two⟩ := (set_denotes 70).logicalor (set_denotes 3)
  obtain ⟨f, second, three⟩ := two.logicalor (set_denotes 71)
  obtain ⟨bits, ones⟩ := enumerates three
  refine ⟨_, _, c, _, _, f, first, second, bits.trans ?_, ones.trans ?_⟩
  · have set : ({70} ∪ {3} ∪ {71} : Finset ℕ) = [3, 70, 71].toFinset := by decide
    rw [set]
    exact (List.toFinset_sort _ (by decide)).mpr (by decide)
  · decide

end Bitmap

end LibdftDr
