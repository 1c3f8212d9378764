import LibdftDr.Library.RunLength
import LibdftDr.TagMap.RunningLength

/-!
# Compressed bitmaps

`EWAHBoolArray<uint32_t>`: a vector of words in which every marker is followed by its literal
words, the number of bits, and the place of the last marker. `Bitmap.Has` says that the vector
is made of segments and that the last marker is where the bitmap has it, `Bitmap.Stores` what the
segments stand for; every operation that adds words keeps the one and adds to the other the words
that it should, across full markers.
-/
namespace LibdftDr
open Library RunningLengthWord

structure Bitmap where
  buffer : List Word
  sizeinbits : ℕ
  lastRLW : ℕ

namespace Bitmap

def wordinbits : ℕ := 32

/-- The constructor, and `reset`. -/
def new : Bitmap where
  buffer := [0]
  sizeinbits := 0
  lastRLW := 0

/-- `buffer[lastRLW]`. -/
def last (b : Bitmap) : Word := b.buffer.getD b.lastRLW 0

def setLast (b : Bitmap) (w : Word) : Bitmap := { b with buffer := b.buffer.set b.lastRLW w }

/-- `buffer.push_back(0)`, and the marker is the last one from now on. -/
def pushMarker (b : Bitmap) : Bitmap :=
  { b with buffer := b.buffer ++ [0], lastRLW := b.buffer.length }

def appendWords (b : Bitmap) (ws : List Word) : Bitmap := { b with buffer := b.buffer ++ ws }

def pushBack (b : Bitmap) (w : Word) : Bitmap := b.appendWords [w]

def addBits (b : Bitmap) (n : ℕ) : Bitmap := { b with sizeinbits := b.sizeinbits + n }

def setSizeInBits (b : Bitmap) (n : ℕ) : Bitmap := { b with sizeinbits := n }

def addLiteralWord (newdata : Word) (b : Bitmap) : Bitmap :=
  let numbersofar := getNumberOfLiteralWords b.last
  if numbersofar ≥ largestliteralcount then
    let b := b.pushMarker
    (b.setLast (setNumberOfLiteralWords b.last 1)).pushBack newdata
  else (b.setLast (setNumberOfLiteralWords b.last (numbersofar + 1))).pushBack newdata

/-- A last marker that is empty is given the bit `v`. -/
def align (v : Bool) (b : Bitmap) : Bitmap :=
  if getNumberOfLiteralWords b.last = 0 ∧ getRunningLength b.last = 0 then
    b.setLast (setRunningBit b.last v)
  else b

def addEmptyWord (v : Bool) (b : Bitmap) : Bitmap :=
  let noliteralword := getNumberOfLiteralWords b.last = 0
  let runlen := getRunningLength b.last
  let b := b.align v
  if noliteralword ∧ getRunningBit b.last = v ∧ runlen < largestrunninglengthcount then
    b.setLast (setRunningLength b.last (runlen + 1))
  else
    let b := b.pushMarker
    let b := b.setLast (setRunningBit b.last v)
    b.setLast (setRunningLength b.last 1)

/-- A new marker for `number` words of `v`. -/
def pushRun (v : Bool) (number : Word) (b : Bitmap) : Bitmap :=
  let b := b.pushMarker
  let b := if v then b.setLast (setRunningBit b.last v) else b
  b.setLast (setRunningLength b.last number)

/-- The loop that adds full markers, and the marker for what is left. -/
def pushRuns (v : Bool) (number : ℕ) (b : Bitmap) : Bitmap :=
  if number ≥ largestrunninglengthcount.toNat then
    pushRuns v (number - largestrunninglengthcount.toNat) (b.pushRun v largestrunninglengthcount)
  else if number > 0 then b.pushRun v (BitVec.ofNat 32 number)
  else b
termination_by number
decreasing_by
  have : largestrunninglengthcount.toNat = 65535 := by decide
  omega

/-- The last marker is made one of a run of `v` without literal words. -/
def openRun (v : Bool) (b : Bitmap) : Bitmap :=
  if getRunningBit b.last ≠ v ∧ size b.last = 0 then b.setLast (setRunningBit b.last v)
  else if getNumberOfLiteralWords b.last ≠ 0 ∨ getRunningBit b.last ≠ v then
    let b := b.pushMarker
    if v then b.setLast (setRunningBit b.last v) else b
  else b

def fastaddStreamOfEmptyWords (v : Bool) (number : ℕ) (b : Bitmap) : Bitmap :=
  let b := b.openRun v
  let runlen := getRunningLength b.last
  let room := largestrunninglengthcount - runlen
  let whatwecanadd := if number < room.toNat then BitVec.ofNat 32 number else room
  let b := b.setLast (setRunningLength b.last (runlen + whatwecanadd))
  b.pushRuns v (number - whatwecanadd.toNat)

/-- As the one above, except that it counts the bits and does nothing for no words. -/
def addStreamOfEmptyWords (v : Bool) (number : ℕ) (b : Bitmap) : Bitmap :=
  if number = 0 then b
  else (b.addBits (number * wordinbits)).fastaddStreamOfEmptyWords v number

@[simp] theorem last_pushMarker (b : Bitmap) : b.pushMarker.last = 0 := by
  simp [last, pushMarker]

/-- How many of `number` literal words the last marker can still count. -/
def whatwecanadd (number : ℕ) (b : Bitmap) : ℕ :=
  let room := largestliteralcount - getNumberOfLiteralWords b.last
  if number < room.toNat then number else room.toNat

/-- The first `k` words of `v`, counted by the last marker. -/
def addLiterals (k : ℕ) (v : List Word) (b : Bitmap) : Bitmap :=
  let number := getNumberOfLiteralWords b.last + BitVec.ofNat 32 k
  ((b.setLast (setNumberOfLiteralWords b.last number)).appendWords (v.take k)).addBits
    (k * wordinbits)

/-- The words that do not fit go behind a new marker. -/
def addStreamOfDirtyWords (v : List Word) (b : Bitmap) : Bitmap :=
  if v.length = 0 then b
  else if v.length - b.whatwecanadd v.length > 0 then
    addStreamOfDirtyWords (v.drop (b.whatwecanadd v.length))
      (b.addLiterals (b.whatwecanadd v.length) v).pushMarker
  else b.addLiterals (b.whatwecanadd v.length) v
termination_by 2 * v.length + if getNumberOfLiteralWords b.last = largestliteralcount then 1 else 0
decreasing_by
  have fresh : getNumberOfLiteralWords 0 ≠ largestliteralcount := by
    rw [getNumberOfLiteralWords_zero, largestliteralcount_eq]
    decide
  rw [last_pushMarker, if_neg fresh, List.length_drop, whatwecanadd]
  -- no word was added only if the marker was full
  split_ifs with less full full
  · omega
  · omega
  · omega
  · have room : (largestliteralcount - getNumberOfLiteralWords b.last).toNat ≠ 0 := by
      generalize largestliteralcount = most at full
      bv_omega
    omega

/-- `add` of a whole word. -/
def add (newdata : Word) (b : Bitmap) : Bitmap :=
  let b := b.addBits 32
  if newdata = 0 then b.addEmptyWord false
  else if newdata = ~~~0 then b.addEmptyWord true
  else b.addLiteralWord newdata

/-- The bits that are missing from `totalbits` when the last literal word, if it is only partly
counted, has been used up. -/
def missingbits (totalbits : ℕ) (b : Bitmap) : ℕ :=
  let missingbits := totalbits - b.sizeinbits
  let remain := b.sizeinbits % wordinbits
  let avail := wordinbits - remain
  if getNumberOfLiteralWords b.last > 0 ∧ remain > 0 ∧ avail > 0 then
    if missingbits > avail then missingbits - avail else 0
  else missingbits

def padWithZeroes (totalbits : ℕ) (b : Bitmap) : Bitmap :=
  if totalbits ≤ b.sizeinbits then b
  else
    let missingbits := b.missingbits totalbits
    let b :=
      if missingbits > 0 then
        let wordstoadd := missingbits / wordinbits
        let wordstoadd := if missingbits % wordinbits ≠ 0 then wordstoadd + 1 else wordstoadd
        b.addStreamOfEmptyWords false wordstoadd
      else b
    b.setSizeInBits totalbits

/-- Bit `i` is set in an array that has no bit above `i`. -/
def set (i : ℕ) (b : Bitmap) : Bitmap :=
  if i < b.sizeinbits then b
  else
    let dist := (i + wordinbits) / wordinbits - (b.sizeinbits + wordinbits - 1) / wordinbits
    let b := b.setSizeInBits (i + 1)
    let bit := (1 : Word) <<< (i % wordinbits)
    if dist > 0 then
      let b := if dist > 1 then b.fastaddStreamOfEmptyWords false (dist - 1) else b
      b.addLiteralWord bit
    else if getNumberOfLiteralWords b.last = 0 then
      let b := b.setLast (setRunningLength b.last (getRunningLength b.last - 1))
      b.addLiteralWord bit
    else
      let top := b.buffer.length - 1
      let b := { b with buffer := b.buffer.set top (b.buffer.getD top 0 ||| bit) }
      if b.buffer.getD top 0 = ~~~0 then
        let b := { b with buffer := b.buffer.dropLast }
        let b := b.setLast (setNumberOfLiteralWords b.last (getNumberOfLiteralWords b.last - 1))
        b.addEmptyWord true
      else b

end Bitmap

/-! ## Segments -/

/-- The word that a running bit repeats. -/
def cleanWord (v : Bool) : Word := if v then ~~~0 else 0

abbrev Seg := Segment Bool Word

namespace Seg

/-- The fields of the marker hold the numbers. -/
structure Fits (s : Seg) : Prop where
  run : s.run < 2 ^ 16
  lits : s.lits.length < 2 ^ 15

def encode (s : Seg) : List Word := marker s.fill s.run s.lits.length :: s.lits

def encodeAll (ss : List Seg) : List Word := ss.flatMap encode

abbrev words (ss : List Seg) : List Word := Segment.all cleanWord ss

def empty (v : Bool) : Seg := ⟨v, 0, []⟩

theorem empty_fits (v : Bool) : Fits (empty v) := ⟨Nat.two_pow_pos 16, Nat.two_pow_pos 15⟩

end Seg

namespace Bitmap

/-- The segments `init` and then `cur`, whose marker is the last one. -/
structure Has (b : Bitmap) (init : List Seg) (cur : Seg) : Prop where
  buffer : b.buffer = Seg.encodeAll init ++ Seg.encode cur
  lastRLW : b.lastRLW = (Seg.encodeAll init).length
  fits : ∀ s ∈ init, Seg.Fits s
  fits_cur : Seg.Fits cur

/-- The uncompressed words of a well-formed bitmap. -/
def Stores (b : Bitmap) (ws : List Word) : Prop :=
  ∃ init cur, b.Has init cur ∧ Seg.words (init ++ [cur]) = ws

section Has

variable {b : Bitmap} {init : List Seg} {cur : Seg} {v : Bool} {n : ℕ}

namespace Has

theorem last (h : b.Has init cur) : b.last = marker cur.fill cur.run cur.lits.length := by
  simp [Bitmap.last, h.buffer, h.lastRLW, Seg.encode]

theorem literals (h : b.Has init cur) :
    getNumberOfLiteralWords b.last = BitVec.ofNat 32 cur.lits.length := by
  rw [h.last, getNumberOfLiteralWords_marker h.fits_cur.lits]

theorem runningLength (h : b.Has init cur) :
    getRunningLength b.last = BitVec.ofNat 32 cur.run := by
  rw [h.last, getRunningLength_marker h.fits_cur.run]

theorem runningBit (h : b.Has init cur) : getRunningBit b.last = cur.fill := by
  rw [h.last, getRunningBit_marker]

theorem literals_toNat (h : b.Has init cur) :
    (getNumberOfLiteralWords b.last).toNat = cur.lits.length := by
  have := h.fits_cur.lits
  rw [h.literals, BitVec.toNat_ofNat]
  omega

theorem runningLength_toNat (h : b.Has init cur) :
    (getRunningLength b.last).toNat = cur.run := by
  have := h.fits_cur.run
  rw [h.runningLength, BitVec.toNat_ofNat]
  omega

theorem literals_eq_zero (h : b.Has init cur) :
    getNumberOfLiteralWords b.last = 0 ↔ cur.lits = [] := by
  rw [← BitVec.toNat_inj, h.literals_toNat]
  exact List.length_eq_zero_iff

theorem size_eq_zero (h : b.Has init cur) : size b.last = 0 ↔ cur.run = 0 ∧ cur.lits = [] := by
  have run := h.fits_cur.run
  have lits := h.fits_cur.lits
  rw [h.last, size_marker run lits, ← BitVec.toNat_inj, BitVec.toNat_ofNat,
    ← List.length_eq_zero_iff]
  change _ = 0 ↔ _
  omega

theorem setLast (h : b.Has init cur) (f : Bool) (small : n < 2 ^ 16) :
    (b.setLast (marker f n cur.lits.length)).Has init ⟨f, n, cur.lits⟩ where
  buffer := by simp [Bitmap.setLast, h.buffer, h.lastRLW, Seg.encode]
  lastRLW := h.lastRLW
  fits := h.fits
  fits_cur := ⟨small, h.fits_cur.lits⟩

theorem setRunningBit (h : b.Has init cur) (f : Bool) :
    (b.setLast (RunningLengthWord.setRunningBit b.last f)).Has init ⟨f, cur.run, cur.lits⟩ := by
  rw [h.last, setRunningBit_marker]
  exact h.setLast f h.fits_cur.run

theorem setRunningLength (h : b.Has init cur) (small : n < 2 ^ 16) :
    (b.setLast (RunningLengthWord.setRunningLength b.last (BitVec.ofNat 32 n))).Has init
      ⟨cur.fill, n, cur.lits⟩ := by
  rw [h.last, setRunningLength_marker]
  exact h.setLast cur.fill small

/-- More literal words behind the last marker, which counts them. -/
theorem extend (h : b.Has init cur) {ws : List Word} (room : cur.lits.length + ws.length < 2 ^ 15) :
    ((b.setLast (setNumberOfLiteralWords b.last
      (BitVec.ofNat 32 (cur.lits.length + ws.length)))).appendWords ws).Has init
        ⟨cur.fill, cur.run, cur.lits ++ ws⟩ where
  buffer := by
    rw [h.last, setNumberOfLiteralWords_marker]
    simp [Bitmap.setLast, appendWords, h.buffer, h.lastRLW, Seg.encode]
  lastRLW := h.lastRLW
  fits := h.fits
  fits_cur := ⟨h.fits_cur.run, by simpa using room⟩

theorem pushMarker (h : b.Has init cur) : b.pushMarker.Has (init ++ [cur]) (Seg.empty false) where
  buffer := by
    simp only [Bitmap.pushMarker, h.buffer, Seg.encodeAll, List.flatMap_append,
      List.flatMap_singleton, Seg.encode, Seg.empty, List.length_nil, ← zero_eq_marker]
  lastRLW := by simp [Bitmap.pushMarker, h.buffer, Seg.encodeAll]
  fits := by
    intro s hs
    rcases List.mem_append.mp hs with old | new
    · exact h.fits s old
    · exact List.mem_singleton.mp new ▸ h.fits_cur
  fits_cur := Seg.empty_fits false

theorem addBits (h : b.Has init cur) (n : ℕ) : (b.addBits n).Has init cur :=
  ⟨h.buffer, h.lastRLW, h.fits, h.fits_cur⟩

theorem setSizeInBits (h : b.Has init cur) (n : ℕ) : (b.setSizeInBits n).Has init cur :=
  ⟨h.buffer, h.lastRLW, h.fits, h.fits_cur⟩

theorem pushRun (h : b.Has init cur) (v : Bool) (small : n < 2 ^ 16) :
    (b.pushRun v (BitVec.ofNat 32 n)).Has (init ++ [cur]) ⟨v, n, []⟩ := by
  have fresh := h.pushMarker
  unfold Bitmap.pushRun
  cases v with
  | false => exact fresh.setRunningLength small
  | true => exact (fresh.setRunningBit true).setRunningLength small

end Has

end Has

/-! ## What is stored -/

section Stores

variable {b : Bitmap} {init : List Seg} {cur t : Seg} {v : Bool} {n : ℕ} {ws : List Word} {w : Word}

theorem new_stores : new.Stores [] := by
  refine ⟨[], Seg.empty false, ⟨?_, rfl, by simp, Seg.empty_fits false⟩, rfl⟩
  exact congrArg (fun w => [w]) zero_eq_marker

theorem Has.stores (h : b.Has init cur) : b.Stores (Seg.words (init ++ [cur])) := ⟨_, _, h, rfl⟩

/-- The last segment has taken up more words. -/
theorem Has.stores_append {b' : Bitmap} (h : b'.Has init t)
    (values : t.values cleanWord = cur.values cleanWord ++ ws) :
    b'.Stores (Seg.words (init ++ [cur]) ++ ws) := by
  rw [← Segment.all_concat_eq cleanWord values]
  exact h.stores

theorem Has.stores_literals {b' : Bitmap} (h : b'.Has init ⟨cur.fill, cur.run, cur.lits ++ ws⟩) :
    b'.Stores (Seg.words (init ++ [cur]) ++ ws) :=
  h.stores_append (by simp [Segment.values])

/-- A new segment holds the new words. -/
theorem Has.stores_new {b' : Bitmap} (h : b'.Has (init ++ [cur]) t)
    (values : t.values cleanWord = ws) : b'.Stores (Seg.words (init ++ [cur]) ++ ws) := by
  refine ⟨_, _, h, ?_⟩
  rw [Seg.words, Segment.all_append, Segment.all_cons, Segment.all_nil, values, List.append_nil]

theorem addBits_stores (h : b.Stores ws) (n : ℕ) : (b.addBits n).Stores ws := by
  obtain ⟨init, cur, has, rfl⟩ := h
  exact (has.addBits n).stores

theorem setSizeInBits_stores (h : b.Stores ws) (n : ℕ) : (b.setSizeInBits n).Stores ws := by
  obtain ⟨init, cur, has, rfl⟩ := h
  exact (has.setSizeInBits n).stores

theorem addLiteralWord_stores (h : b.Stores ws) : (b.addLiteralWord w).Stores (ws ++ [w]) := by
  obtain ⟨init, cur, has, rfl⟩ := h
  simp only [addLiteralWord]
  split_ifs with full
  · have room : (Seg.empty false).lits.length + [w].length < 2 ^ 15 := by simp [Seg.empty]
    exact (has.pushMarker.extend room).stores_new rfl
  · have room : cur.lits.length + [w].length < 2 ^ 15 := by
      rw [largestliteralcount_eq, ge_iff_le, BitVec.le_def, has.literals_toNat] at full
      simp only [BitVec.toNat_ofNat, List.length_singleton] at full ⊢
      omega
    have next : getNumberOfLiteralWords b.last + 1 =
        BitVec.ofNat 32 (cur.lits.length + [w].length) := by
      rw [has.literals, List.length_singleton, BitVec.ofNat_add]
      rfl
    rw [next]
    exact (has.extend room).stores_literals

/-- An empty marker stands for no words whatever its bit is. -/
theorem Has.align (h : b.Has init cur) (v : Bool) :
    ∃ f, (b.align v).Has init ⟨f, cur.run, cur.lits⟩ ∧
    (f ≠ cur.fill → cur.run = 0) := by
  unfold Bitmap.align
  split_ifs with none
  · refine ⟨v, h.setRunningBit v, fun _ => ?_⟩
    rw [← h.runningLength_toNat, none.2]
    rfl
  · exact ⟨cur.fill, h, fun ne => absurd rfl ne⟩

/-- The run of the last segment is longer, or its bit was changed before there was a run. -/
theorem Has.stores_run {b' : Bitmap} (h : b'.Has init t) (longer : t.run = cur.run + n)
    (lits : t.lits = []) (none : cur.lits = []) (same : t.fill ≠ cur.fill → cur.run = 0) :
    b'.Stores (Seg.words (init ++ [cur]) ++ List.replicate n (cleanWord t.fill)) := by
  refine h.stores_append ?_
  simp only [Segment.values, longer, lits, none, List.append_nil, List.replicate_add]
  by_cases e : t.fill = cur.fill
  · rw [e]
  · rw [same e]
    rfl

theorem addEmptyWord_stores (h : b.Stores ws) :
    (b.addEmptyWord v).Stores (ws ++ [cleanWord v]) := by
  obtain ⟨init, cur, has, rfl⟩ := h
  obtain ⟨f, aligned, same⟩ := has.align v
  simp only [addEmptyWord]
  split_ifs with fits
  · obtain ⟨nolits, bit, few⟩ := fits
    obtain rfl : f = v := aligned.runningBit.symm.trans bit
    rw [largestrunninglengthcount_eq, BitVec.lt_def, has.runningLength_toNat] at few
    have small : cur.run + 1 < 2 ^ 16 := by
      simp only [BitVec.toNat_ofNat] at few
      omega
    have next : getRunningLength b.last + 1 = BitVec.ofNat 32 (cur.run + 1) := by
      rw [has.runningLength, BitVec.ofNat_add]
      rfl
    have none := has.literals_eq_zero.mp nolits
    rw [next]
    exact (aligned.setRunningLength small).stores_run rfl none none same
  · have one : (1 : ℕ) < 2 ^ 16 := by decide
    have new : Seg.words (init ++ [⟨f, cur.run, cur.lits⟩]) = Seg.words (init ++ [cur]) := by
      by_cases e : f = cur.fill
      · rw [e]
      · simp [Seg.words, Segment.all_append, Segment.values, same e]
    rw [← new]
    exact ((aligned.pushMarker.setRunningBit v).setRunningLength one).stores_new rfl

/-- The word that the running bit of the accessors repeats. -/
theorem Has.openRun (h : b.Has init cur) (v : Bool) : ∃ init' t, (b.openRun v).Has init' t ∧
    t.fill = v ∧ t.lits = [] ∧ Seg.words (init' ++ [t]) = Seg.words (init ++ [cur]) := by
  have fresh : b.pushMarker.Has (init ++ [cur]) (Seg.empty false) := h.pushMarker
  have none : ∀ f, Seg.words (init ++ [cur] ++ [Seg.empty f]) = Seg.words (init ++ [cur]) := by
    simp [Seg.words, Segment.all_append, Segment.values, Seg.empty]
  unfold Bitmap.openRun
  split_ifs with flip new bit
  · obtain ⟨run, lits⟩ := h.size_eq_zero.mp flip.2
    refine ⟨init, _, h.setRunningBit v, rfl, lits, ?_⟩
    simp [Seg.words, Segment.all_append, Segment.values, run, lits]
  · exact ⟨_, _, fresh.setRunningBit v, rfl, rfl, none v⟩
  · exact ⟨_, _, fresh, (Bool.eq_false_of_not_eq_true bit).symm, rfl, none false⟩
  · rw [not_or, not_not, not_not, h.literals_eq_zero, h.runningBit] at new
    exact ⟨init, cur, h, new.2, new.1, rfl⟩

theorem pushRun_stores (h : b.Stores ws) (small : n < 2 ^ 16) :
    (b.pushRun v (BitVec.ofNat 32 n)).Stores (ws ++ List.replicate n (cleanWord v)) := by
  obtain ⟨init, cur, has, rfl⟩ := h
  exact (has.pushRun v small).stores_new (by simp [Segment.values])

theorem pushRuns_stores (h : b.Stores ws) :
    (b.pushRuns v n).Stores (ws ++ List.replicate n (cleanWord v)) := by
  have full : largestrunninglengthcount.toNat = 65535 := by
    rw [largestrunninglengthcount_eq]
    rfl
  induction n using Nat.strong_induction_on generalizing b ws with
  | _ n ih =>
    rw [pushRuns]
    split_ifs with many some
    · rw [full] at many ⊢
      have parts : n = 65535 + (n - 65535) := by omega
      rw [largestrunninglengthcount_eq]
      conv_rhs => rw [parts, List.replicate_add, ← List.append_assoc]
      exact ih _ (by omega) (pushRun_stores h (by decide))
    · exact pushRun_stores h (by omega)
    · obtain rfl : n = 0 := by omega
      simpa using h

theorem fastaddStreamOfEmptyWords_stores (h : b.Stores ws) :
    (b.fastaddStreamOfEmptyWords v n).Stores (ws ++ List.replicate n (cleanWord v)) := by
  obtain ⟨init, cur, has, rfl⟩ := h
  obtain ⟨init', t, run, rfl, lits, same⟩ := has.openRun v
  have fits := run.fits_cur.run
  simp only [fastaddStreamOfEmptyWords]
  rw [← same]
  -- as many words as the run of the last marker still takes
  obtain ⟨k, few, room, added⟩ : ∃ k, k ≤ n ∧ t.run + k < 2 ^ 16 ∧
      (if n < (largestrunninglengthcount - getRunningLength (b.openRun t.fill).last).toNat
        then BitVec.ofNat 32 n
        else largestrunninglengthcount - getRunningLength (b.openRun t.fill).last) =
      BitVec.ofNat 32 k := by
    have left : (largestrunninglengthcount - getRunningLength (b.openRun t.fill).last).toNat =
        65535 - t.run := by
      rw [largestrunninglengthcount_eq, run.runningLength]
      simp only [BitVec.toNat_sub, BitVec.toNat_ofNat]
      omega
    split_ifs with less
    · exact ⟨n, le_rfl, by omega, rfl⟩
    · refine ⟨65535 - t.run, by omega, by omega, BitVec.eq_of_toNat_eq ?_⟩
      rw [left, BitVec.toNat_ofNat]
      omega
  rw [added, run.runningLength, ← BitVec.ofNat_add, BitVec.toNat_ofNat,
    Nat.mod_eq_of_lt (by omega : k < 2 ^ 32)]
  have filled := (run.setRunningLength room).stores_run rfl lits lits fun e => absurd rfl e
  have parts : n = k + (n - k) := by omega
  conv_rhs => rw [parts, List.replicate_add, ← List.append_assoc]
  exact pushRuns_stores filled

theorem addStreamOfEmptyWords_stores (h : b.Stores ws) :
    (b.addStreamOfEmptyWords v n).Stores (ws ++ List.replicate n (cleanWord v)) := by
  unfold addStreamOfEmptyWords
  split_ifs with none
  · simpa [none] using h
  · exact fastaddStreamOfEmptyWords_stores (addBits_stores h _)

theorem Has.whatwecanadd (h : b.Has init cur) (n : ℕ) :
    b.whatwecanadd n = min n (32767 - cur.lits.length) := by
  have lits := h.fits_cur.lits
  have room : (largestliteralcount - getNumberOfLiteralWords b.last).toNat =
      32767 - cur.lits.length := by
    rw [largestliteralcount_eq, h.literals]
    simp only [BitVec.toNat_sub, BitVec.toNat_ofNat]
    omega
  simp only [Bitmap.whatwecanadd]
  rw [room]
  split_ifs <;> omega

theorem Has.addLiterals (h : b.Has init cur) (vs : List Word) :
    (b.addLiterals (b.whatwecanadd vs.length) vs).Has init
      ⟨cur.fill, cur.run, cur.lits ++ vs.take (b.whatwecanadd vs.length)⟩ := by
  have lits := h.fits_cur.lits
  have length : (vs.take (b.whatwecanadd vs.length)).length = b.whatwecanadd vs.length := by
    rw [List.length_take, h.whatwecanadd]
    omega
  have room : cur.lits.length + (vs.take (b.whatwecanadd vs.length)).length < 2 ^ 15 := by
    rw [length, h.whatwecanadd]
    omega
  have extended := h.extend room
  rw [length, BitVec.ofNat_add, ← h.literals] at extended
  exact extended.addBits _

/-- The words that fit behind the last marker are stored before the rest. -/
theorem addStreamOfDirtyWords_stores {vs : List Word} (h : b.Stores ws) :
    (b.addStreamOfDirtyWords vs).Stores (ws ++ vs) := by
  induction vs, b using addStreamOfDirtyWords.induct generalizing ws with
  | case1 vs b none =>
    rw [addStreamOfDirtyWords, if_pos none, List.length_eq_zero_iff.mp none, List.append_nil]
    exact h
  | case2 vs b some more ih =>
    obtain ⟨init, cur, has, rfl⟩ := h
    have first := (has.addLiterals vs).stores_literals
    have fresh : (b.addLiterals (b.whatwecanadd vs.length) vs).pushMarker.Stores
        (Seg.words (init ++ [cur]) ++ vs.take (b.whatwecanadd vs.length)) := by
      obtain ⟨init', cur', has', same⟩ := first
      rw [← same, ← List.append_nil (Seg.words _)]
      exact has'.pushMarker.stores_new rfl
    rw [addStreamOfDirtyWords, if_neg some, if_pos more]
    conv_rhs => rw [← List.take_append_drop (b.whatwecanadd vs.length) vs, ← List.append_assoc]
    exact ih fresh
  | case3 vs b some enough =>
    obtain ⟨init, cur, has, rfl⟩ := h
    have whole : vs.take (b.whatwecanadd vs.length) = vs := List.take_of_length_le (by omega)
    have first := (has.addLiterals vs).stores_literals
    rw [addStreamOfDirtyWords, if_neg some, if_neg enough]
    rwa [whole] at first

theorem add_stores (h : b.Stores ws) : (b.add w).Stores (ws ++ [w]) := by
  have more := addBits_stores h 32
  simp only [add]
  split_ifs with zeros ones
  · rw [zeros]
    exact addEmptyWord_stores more
  · rw [ones]
    exact addEmptyWord_stores more
  · exact addLiteralWord_stores more

end Stores

end Bitmap

end LibdftDr
