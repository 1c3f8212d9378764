import LibdftDr.TagMap.Padding
import Mathlib.Data.Finset.Basic

/-!
# The union of two bitmaps

`logicalor` walks over the segments of both operands: the shorter segment at hand is the prey,
and it is gone through together with as much of the other one, the predator. First both operands
are padded to the same size, in place, so a union changes how its operands are stored; it does
not change what they denote.

A raw iterator is `At` a segment when its counters are those of what is left of it and the
literal words that are left lie right before its pointer.
-/
namespace LibdftDr
open Library RunningLengthWord

/-! ## Raw iterators -/

structure BufferedRunningLengthWord where
  runningBit : Bool
  runningLength : Word
  numberOfLiteralWords : Word

namespace BufferedRunningLengthWord

def read (data : Word) : BufferedRunningLengthWord where
  runningBit := getRunningBit data
  runningLength := getRunningLength data
  numberOfLiteralWords := getNumberOfLiteralWords data

def size (r : BufferedRunningLengthWord) : Word := r.runningLength + r.numberOfLiteralWords

def discardFirstWords (r : BufferedRunningLengthWord) (x : Word) : BufferedRunningLengthWord :=
  if r.runningLength ≥ x then { r with runningLength := r.runningLength - x }
  else
    { r with
      runningLength := 0
      numberOfLiteralWords := r.numberOfLiteralWords - (x - r.runningLength) }

end BufferedRunningLengthWord

structure RawIterator where
  parent : List Word
  pointer : ℕ
  rlw : BufferedRunningLengthWord

def Bitmap.rawIterator (b : Bitmap) : RawIterator where
  parent := b.buffer
  pointer := 0
  rlw := .read (b.buffer.getD 0 0)

namespace RawIterator

def hasNext (it : RawIterator) : Bool := it.pointer < it.parent.length

def next (it : RawIterator) : RawIterator :=
  let rlw := BufferedRunningLengthWord.read (it.parent.getD it.pointer 0)
  { it with pointer := it.pointer + rlw.numberOfLiteralWords.toNat + 1, rlw := rlw }

/-- What a pointer to the first literal word that is left points to. -/
def dirtyWords (it : RawIterator) : Except Fault (List Word) :=
  let start := it.pointer - it.rlw.numberOfLiteralWords.toNat
  if start < it.parent.length then .ok (it.parent.drop start) else .error .outOfBounds

def discardFirstWords (it : RawIterator) (x : Word) : RawIterator :=
  { it with rlw := it.rlw.discardFirstWords x }

/-- The first `n` words from there on. -/
def readDirty (it : RawIterator) (n : Word) : Except Fault (List Word) := do
  let dw ← it.dirtyWords
  if n.toNat ≤ dw.length then .ok (dw.take n.toNat) else .error .outOfBounds

end RawIterator

/-! ## The union -/

namespace Bitmap

/-- What a round works on: the two iterators and the bitmap that is made. -/
structure Round where
  prey : RawIterator
  predator : RawIterator
  container : Bitmap

namespace Round

def discardFirstWords (r : Round) (x : Word) (container : Bitmap) : Round :=
  ⟨r.prey.discardFirstWords x, r.predator.discardFirstWords x, container⟩

/-- The container after a run of zeros of the prey: it takes over the words of the predator. -/
def overZeros (r : Round) : Except Fault Bitmap :=
  let preyrl := r.prey.rlw.runningLength
  let predatorrl := r.predator.rlw.runningLength
  if predatorrl ≥ preyrl then
    .ok (r.container.addStreamOfEmptyWords r.predator.rlw.runningBit preyrl.toNat)
  else
    let container := r.container.addStreamOfEmptyWords r.predator.rlw.runningBit predatorrl.toNat
    if preyrl - predatorrl > 0 then do
      let dw ← r.predator.readDirty (preyrl - predatorrl)
      .ok (container.addStreamOfDirtyWords dw)
    else .ok container

/-- The run of the prey. -/
def overRun (r : Round) : Except Fault Round :=
  let preyrl := r.prey.rlw.runningLength
  if r.prey.rlw.runningBit = false then do
    let container ← r.overZeros
    .ok (r.discardFirstWords preyrl container)
  else
    .ok (r.discardFirstWords preyrl (r.container.addStreamOfEmptyWords true preyrl.toNat))

/-- The literal words of the prey that lie in the run of the predator. -/
def tobediscarded (r : Round) : Word :=
  let predatorrl := r.predator.rlw.runningLength
  let nbreDirtyPrey := r.prey.rlw.numberOfLiteralWords
  if predatorrl ≥ nbreDirtyPrey then nbreDirtyPrey else predatorrl

/-- What is left of the run of the predator. -/
def overPredatorRun (r : Round) : Except Fault Round :=
  if r.predator.rlw.runningLength > 0 then
    if r.predator.rlw.runningBit = false then
      if r.tobediscarded > 0 then do
        let dw ← r.prey.readDirty r.tobediscarded
        .ok (r.discardFirstWords r.tobediscarded (r.container.addStreamOfDirtyWords dw))
      else .ok r
    else
      .ok (r.discardFirstWords r.tobediscarded
        (r.container.addStreamOfEmptyWords true r.tobediscarded.toNat))
  else .ok r

/-- The literal words of both. -/
def overDirtyWords (r : Round) : Except Fault Round :=
  let nbreDirtyPrey := r.prey.rlw.numberOfLiteralWords
  if nbreDirtyPrey > 0 then do
    let preydirty ← r.prey.readDirty nbreDirtyPrey
    let predatordirty ← r.predator.readDirty nbreDirtyPrey
    let words := List.zipWith (· ||| ·) preydirty predatordirty
    .ok ⟨r.prey, r.predator.discardFirstWords nbreDirtyPrey,
      words.foldl (fun c w => c.add w) r.container⟩
  else .ok r

def run (r : Round) : Except Fault Round := do
  let r ← r.overRun
  let r ← r.overPredatorRun
  r.overDirtyWords

/-- A round moves no pointer: it changes the counters of the iterators only. -/
structure Keeps (r r' : Round) : Prop where
  prey : r'.prey.parent = r.prey.parent ∧ r'.prey.pointer = r.prey.pointer
  predator : r'.predator.parent = r.predator.parent ∧ r'.predator.pointer = r.predator.pointer

theorem Keeps.refl (r : Round) : r.Keeps r := ⟨⟨rfl, rfl⟩, ⟨rfl, rfl⟩⟩

theorem Keeps.trans {r s t : Round} (h : r.Keeps s) (g : s.Keeps t) : r.Keeps t :=
  ⟨⟨g.prey.1.trans h.prey.1, g.prey.2.trans h.prey.2⟩,
    ⟨g.predator.1.trans h.predator.1, g.predator.2.trans h.predator.2⟩⟩

theorem bind_ok {ε α β : Type} {x : Except ε α} {f : α → Except ε β} {b : β}
    (h : x >>= f = .ok b) : ∃ a, x = .ok a ∧ f a = .ok b := by
  cases x with
  | error e => cases h
  | ok a => exact ⟨a, rfl, h⟩

variable {r r' : Round}

theorem overRun_keeps (h : r.overRun = .ok r') : r.Keeps r' := by
  simp only [overRun] at h
  split_ifs at h with zeros
  · obtain ⟨c, -, done⟩ := bind_ok h
    cases done
    exact ⟨⟨rfl, rfl⟩, ⟨rfl, rfl⟩⟩
  · cases h
    exact ⟨⟨rfl, rfl⟩, ⟨rfl, rfl⟩⟩

theorem overPredatorRun_keeps (h : r.overPredatorRun = .ok r') : r.Keeps r' := by
  simp only [overPredatorRun] at h
  split_ifs at h
  · obtain ⟨dw, -, h⟩ := bind_ok h
    cases h
    exact ⟨⟨rfl, rfl⟩, ⟨rfl, rfl⟩⟩
  · cases h
    exact .refl r
  · cases h
    exact ⟨⟨rfl, rfl⟩, ⟨rfl, rfl⟩⟩
  · cases h
    exact .refl r

theorem overDirtyWords_keeps (h : r.overDirtyWords = .ok r') : r.Keeps r' := by
  simp only [overDirtyWords] at h
  split_ifs at h
  · obtain ⟨dw, -, h⟩ := bind_ok h
    obtain ⟨dw', -, h⟩ := bind_ok h
    cases h
    exact ⟨⟨rfl, rfl⟩, ⟨rfl, rfl⟩⟩
  · cases h
    exact .refl r

theorem run_keeps (h : r.run = .ok r') : r.Keeps r' := by
  obtain ⟨s, first, h⟩ := bind_ok h
  obtain ⟨t, second, third⟩ := bind_ok h
  exact (overRun_keeps first).trans
    ((overPredatorRun_keeps second).trans (overDirtyWords_keeps third))

end Round

/-- The loop of `logicalor`; it ends when the prey was the last segment of its bitmap. -/
def orLoop (i j : RawIterator) (container : Bitmap) : Except Fault Bitmap :=
  if i.rlw.size < j.rlw.size then
    match _h : Round.run ⟨i, j, container⟩ with
    | .error e => .error e
    | .ok r => if r.prey.hasNext then orLoop r.prey.next r.predator r.container else .ok r.container
  else
    match _h : Round.run ⟨j, i, container⟩ with
    | .error e => .error e
    | .ok r => if r.prey.hasNext then orLoop r.predator r.prey.next r.container else .ok r.container
termination_by (i.parent.length - i.pointer) + (j.parent.length - j.pointer)
decreasing_by
  all_goals
    rename_i more
    obtain ⟨⟨prey, preyAt⟩, ⟨predator, predatorAt⟩⟩ := Round.run_keeps _h
    have left : r.prey.pointer < r.prey.parent.length := by simpa [RawIterator.hasNext] using more
    simp only [RawIterator.next, prey, preyAt, predator, predatorAt] at *
    omega

/-- `makeSameSize`, for `this` and the argument. -/
def makeSameSize (this a : Bitmap) : Bitmap × Bitmap :=
  if a.sizeinbits < this.sizeinbits then (this, a.padWithZeroes this.sizeinbits)
  else if this.sizeinbits < a.sizeinbits then (this.padWithZeroes a.sizeinbits, a)
  else (this, a)

/-- `this`, the argument, and the container, as the call leaves them. -/
def logicalor (this a : Bitmap) : Except Fault (Bitmap × Bitmap × Bitmap) :=
  let (this, a) := makeSameSize this a
  let i := a.rawIterator
  let j := this.rawIterator
  if ¬ (i.hasNext ∧ j.hasNext) then .ok (this, a, new.setSizeInBits this.sizeinbits)
  else do
    let container ← orLoop i.next j.next new
    .ok (this, a, container.setSizeInBits this.sizeinbits)

end Bitmap

/-! ## Where an iterator is -/

/-- The iterator is in the segment of which `cur` is left, before the segments `rest`. -/
structure RawIterator.At (it : RawIterator) (cur : Seg) (rest : List Seg) : Prop where
  bit : it.rlw.runningBit = cur.fill
  run : it.rlw.runningLength = BitVec.ofNat 32 cur.run
  literals : it.rlw.numberOfLiteralWords = BitVec.ofNat 32 cur.lits.length
  place : ∃ before, it.parent = before ++ (cur.lits ++ Seg.encodeAll rest) ∧
    it.pointer = before.length + cur.lits.length
  fits : Seg.Fits cur
  rest_fits : ∀ s ∈ rest, Seg.Fits s

theorem Seg.Fits.size_lt {s : Seg} (h : Seg.Fits s) : s.size < 2 ^ 17 := by
  have run := h.run
  have lits := h.lits
  rw [Segment.size]
  omega

theorem Seg.Fits.discard {s : Seg} (h : Seg.Fits s) (k : ℕ) : Seg.Fits (s.discard k) where
  run := (Nat.sub_le s.run k).trans_lt h.run
  lits := by
    rw [Segment.discard, List.length_drop]
    exact (Nat.sub_le ..).trans_lt h.lits

namespace RawIterator.At

variable {it : RawIterator} {cur s : Seg} {rest : List Seg} {k : ℕ}

theorem run_toNat (h : it.At cur rest) : it.rlw.runningLength.toNat = cur.run := by
  have := h.fits.run
  rw [h.run, BitVec.toNat_ofNat]
  omega

theorem literals_toNat (h : it.At cur rest) :
    it.rlw.numberOfLiteralWords.toNat = cur.lits.length := by
  have := h.fits.lits
  rw [h.literals, BitVec.toNat_ofNat]
  omega

theorem size_toNat (h : it.At cur rest) : it.rlw.size.toNat = cur.size := by
  have := h.fits.size_lt
  rw [BufferedRunningLengthWord.size, h.run, h.literals, ← BitVec.ofNat_add, BitVec.toNat_ofNat,
    ← Segment.size]
  omega

theorem discardFirstWords (h : it.At cur rest) (hk : k ≤ cur.size) :
    (it.discardFirstWords (BitVec.ofNat 32 k)).At (cur.discard k) rest := by
  have size := h.fits.size_lt
  have small : k % 2 ^ 32 = k := by omega
  obtain ⟨before, parent, pointer⟩ := h.place
  unfold RawIterator.discardFirstWords BufferedRunningLengthWord.discardFirstWords
  split_ifs with inRun
  · rw [ge_iff_le, BitVec.le_def, h.run_toNat, BitVec.toNat_ofNat, small] at inRun
    have lits := Segment.discard_lits_of_le (s := cur) inRun
    refine ⟨h.bit, ?_, ?_, ⟨before, ?_, ?_⟩, h.fits.discard k, h.rest_fits⟩
    · rw [h.run, Segment.discard_run, BitVec.ofNat_sub_ofNat_of_le _ _ (by omega) inRun]
    · rw [lits]
      exact h.literals
    · rw [lits]
      exact parent
    · rw [lits]
      exact pointer
  · rw [ge_iff_le, BitVec.le_def, h.run_toNat, BitVec.toNat_ofNat, small] at inRun
    have left : k - cur.run ≤ cur.lits.length := by
      rw [Segment.size] at hk
      omega
    refine ⟨h.bit, ?_, ?_, ⟨before ++ cur.lits.take (k - cur.run), ?_, ?_⟩, h.fits.discard k,
      h.rest_fits⟩
    · rw [Segment.discard_run, Nat.sub_eq_zero_of_le (by omega)]
      rfl
    · rw [Segment.discard, List.length_drop, h.run, h.literals,
        BitVec.ofNat_sub_ofNat_of_le _ _ (by omega) (by omega),
        BitVec.ofNat_sub_ofNat_of_le _ _ (by omega) left]
    · rw [parent, Segment.discard, List.append_assoc, ← List.append_assoc (List.take ..),
        List.take_append_drop]
    · rw [pointer, Segment.discard, List.length_append, List.length_take, List.length_drop]
      omega

/-- The literal words that are left can be read. -/
theorem readDirty (h : it.At cur rest) (pos : 0 < k) (hk : k ≤ cur.lits.length) :
    it.readDirty (BitVec.ofNat 32 k) = .ok (cur.lits.take k) := by
  have lits := h.fits.lits
  obtain ⟨before, parent, pointer⟩ := h.place
  have start : it.pointer - it.rlw.numberOfLiteralWords.toNat = before.length := by
    rw [h.literals_toNat, pointer]
    omega
  have inside : before.length < it.parent.length := by
    rw [parent]
    simp only [List.length_append]
    omega
  have pointed : it.dirtyWords = .ok (cur.lits ++ Seg.encodeAll rest) := by
    rw [dirtyWords, start]
    simp only [if_pos inside]
    rw [parent, List.drop_left]
  have small : (BitVec.ofNat 32 k).toNat = k := by
    rw [BitVec.toNat_ofNat]
    omega
  have enough : k ≤ (cur.lits ++ Seg.encodeAll rest).length := by
    rw [List.length_append]
    omega
  rw [RawIterator.readDirty, pointed]
  change (if _ then _ else _) = _
  rw [small, if_pos enough, List.take_append_of_le_length hk]

theorem hasNext_nil (h : it.At cur []) : it.hasNext = false := by
  obtain ⟨before, parent, pointer⟩ := h.place
  simp [hasNext, parent, pointer, Seg.encodeAll]

theorem hasNext_cons (h : it.At cur (s :: rest)) : it.hasNext = true := by
  obtain ⟨before, parent, pointer⟩ := h.place
  simp [hasNext, parent, pointer, Seg.encodeAll, Seg.encode]

end RawIterator.At

/-- Reading a marker puts the iterator in its segment. -/
theorem RawIterator.next_at {it : RawIterator} {before : List Word} {s : Seg} {rest : List Seg}
    (parent : it.parent = before ++ Seg.encodeAll (s :: rest))
    (pointer : it.pointer = before.length)
    (fits : ∀ t ∈ s :: rest, Seg.Fits t) : it.next.At s rest := by
  have here : it.parent.getD it.pointer 0 = marker s.fill s.run s.lits.length := by
    simp [parent, pointer, Seg.encodeAll, Seg.encode]
  have own : Seg.Fits s := fits s List.mem_cons_self
  have lits : (getNumberOfLiteralWords (marker s.fill s.run s.lits.length)).toNat =
      s.lits.length := by
    have := own.lits
    rw [getNumberOfLiteralWords_marker own.lits, BitVec.toNat_ofNat]
    omega
  refine ⟨?_, ?_, ?_, ⟨before ++ [marker s.fill s.run s.lits.length], ?_, ?_⟩, own,
    fun t ht => fits t (List.mem_cons_of_mem s ht)⟩
  · exact (congrArg getRunningBit here).trans getRunningBit_marker
  · exact (congrArg getRunningLength here).trans (getRunningLength_marker own.run)
  · exact (congrArg getNumberOfLiteralWords here).trans (getNumberOfLiteralWords_marker own.lits)
  · simp [next, parent, Seg.encodeAll, Seg.encode]
  · change it.pointer + (getNumberOfLiteralWords (it.parent.getD it.pointer 0)).toNat + 1 = _
    rw [here, lits, pointer, List.length_append, List.length_singleton]
    omega

theorem RawIterator.At.next {it : RawIterator} {cur s : Seg} {rest : List Seg}
    (h : it.At cur (s :: rest)) : it.next.At s rest := by
  obtain ⟨before, parent, pointer⟩ := h.place
  have there : it.parent = before ++ cur.lits ++ Seg.encodeAll (s :: rest) := by
    rw [parent, List.append_assoc]
  exact RawIterator.next_at there (by rw [pointer, List.length_append]) h.rest_fits

/-! ## What a round does -/

section Words

variable {β γ : Type*} {ws : List Word}

theorem zipWith_or_comm (ws vs : List Word) :
    List.zipWith (· ||| ·) ws vs = List.zipWith (· ||| ·) vs ws :=
  List.zipWith_comm_of_comm BitVec.or_comm

theorem zipWith_zeros {n : ℕ} (h : ws.length = n) :
    List.zipWith (· ||| ·) (List.replicate n (cleanWord false)) ws = ws := by
  subst h
  induction ws with
  | nil => rfl
  | cons w ws ih =>
    rw [List.length_cons, List.replicate_succ, List.zipWith_cons_cons, ih]
    exact congrArg (· :: ws) BitVec.zero_or

theorem zipWith_ones {n : ℕ} (h : ws.length = n) :
    List.zipWith (· ||| ·) (List.replicate n (cleanWord true)) ws =
      List.replicate n (cleanWord true) := by
  subst h
  induction ws with
  | nil => rfl
  | cons w ws ih =>
    rw [List.length_cons, List.replicate_succ, List.zipWith_cons_cons, ih]
    exact congrArg (· :: _) BitVec.allOnes_or

/-- The words of a stretch in the middle. -/
theorem zipWith_take_add (f : β → β → γ) (as bs : List β) (k j : ℕ) :
    (List.zipWith f as bs).take (k + j) = (List.zipWith f as bs).take k ++
      List.zipWith f ((as.drop k).take j) ((bs.drop k).take j) := by
  rw [List.take_add, List.drop_zipWith]
  exact congrArg (_ ++ ·) List.take_zipWith

end Words

/-- The union of what two segments stand for, as far as the first reaches. -/
abbrev Seg.union (p q : Seg) : List Word :=
  List.zipWith (· ||| ·) (p.values cleanWord) (q.values cleanWord)

namespace Bitmap

/-- The first `k` words of the prey `p` have been gone through, and as many of the predator. -/
structure Round.Gone (r : Round) (p : Seg) (ps : List Seg) (q : Seg) (qs : List Seg)
    (ws : List Word) (k : ℕ) : Prop where
  size_le : p.size ≤ q.size
  le : k ≤ p.size
  prey : r.prey.At (p.discard k) ps
  predator : r.predator.At (q.discard k) qs
  stored : r.container.Stores (ws ++ (Seg.union p q).take k)

namespace Round.Gone

variable {r : Round} {p q : Seg} {ps qs : List Seg} {ws vs : List Word} {k j : ℕ} {c : Bitmap}

/-- The next `j` words. -/
theorem step (h : r.Gone p ps q qs ws k) (hj : k + j ≤ p.size)
    (new : vs = List.zipWith (· ||| ·) (((p.discard k).values cleanWord).take j)
      (((q.discard k).values cleanWord).take j))
    (stored : c.Stores (ws ++ (Seg.union p q).take k ++ vs)) :
    (r.discardFirstWords (BitVec.ofNat 32 j) c).Gone p ps q qs ws (k + j) := by
  have size := h.size_le
  refine ⟨size, hj, ?_, ?_, ?_⟩
  · rw [← Segment.discard_discard]
    exact h.prey.discardFirstWords (by rw [Segment.size_discard]; omega)
  · rw [← Segment.discard_discard]
    exact h.predator.discardFirstWords (by rw [Segment.size_discard]; omega)
  · rw [Segment.values_discard, Segment.values_discard] at new
    rw [zipWith_take_add, ← new, ← List.append_assoc]
    exact stored

end Round.Gone

namespace Round

variable {r : Round} {p q : Seg} {ps qs : List Seg} {ws : List Word} {k : ℕ}

theorem overZeros_stores (prey : r.prey.At p ps) (predator : r.predator.At q qs)
    (le : p.run ≤ q.size) (stored : r.container.Stores ws) :
    ∃ c, r.overZeros = .ok c ∧ c.Stores (ws ++ (q.values cleanWord).take p.run) := by
  have run := prey.fits.run
  have enough : r.predator.rlw.runningLength ≥ r.prey.rlw.runningLength ↔ p.run ≤ q.run := by
    rw [ge_iff_le, BitVec.le_def, prey.run_toNat, predator.run_toNat]
  have left : q.run < p.run → r.prey.rlw.runningLength - r.predator.rlw.runningLength =
      BitVec.ofNat 32 (p.run - q.run) := fun less => by
    rw [prey.run, predator.run, BitVec.ofNat_sub_ofNat_of_le _ _ (by omega) less.le]
  simp only [overZeros, prey.run_toNat, predator.run_toNat, predator.bit]
  split_ifs with inRun more
  · refine ⟨_, rfl, ?_⟩
    rw [Segment.take_values_of_le cleanWord (enough.mp inRun)]
    exact addStreamOfEmptyWords_stores stored
  · have less : q.run < p.run := not_le.mp (mt enough.mpr inRun)
    have read : r.predator.readDirty (BitVec.ofNat 32 (p.run - q.run)) =
        .ok (q.lits.take (p.run - q.run)) := by
      refine predator.readDirty (by omega) ?_
      rw [Segment.size] at le
      omega
    have parts : (q.values cleanWord).take p.run =
        List.replicate q.run (cleanWord q.fill) ++ q.lits.take (p.run - q.run) := by
      rw [Segment.values, List.take_append, List.length_replicate,
        List.take_of_length_le (by rw [List.length_replicate]; exact less.le)]
    rw [left less, read, parts, ← List.append_assoc]
    exact ⟨_, rfl, addStreamOfDirtyWords_stores (addStreamOfEmptyWords_stores stored)⟩
  · have less : q.run < p.run := not_le.mp (mt enough.mpr inRun)
    refine absurd ?_ more
    rw [left less, gt_iff_lt, BitVec.lt_def, BitVec.toNat_ofNat]
    change 0 < _
    omega

theorem overRun_gone (h : r.Gone p ps q qs ws 0) :
    ∃ r', r.overRun = .ok r' ∧ r'.Gone p ps q qs ws p.run := by
  have size := h.size_le
  have inside : p.run ≤ p.size := Nat.le_add_right ..
  have prey : r.prey.At p ps := by simpa using h.prey
  have predator : r.predator.At q qs := by simpa using h.predator
  have stored : r.container.Stores ws := by simpa using h.stored
  have length : ((q.values cleanWord).take p.run).length = p.run := by
    rw [List.length_take, Segment.length_values]
    omega
  have front : (p.values cleanWord).take p.run = List.replicate p.run (cleanWord p.fill) :=
    Segment.take_values_of_le cleanWord le_rfl
  -- with the words that the two segments start with, the step is taken
  have step : ∀ {vs c}, vs = List.zipWith (· ||| ·) (List.replicate p.run (cleanWord p.fill))
      ((q.values cleanWord).take p.run) → c.Stores (ws ++ vs) →
      (r.discardFirstWords (BitVec.ofNat 32 p.run) c).Gone p ps q qs ws p.run := by
    intro vs c new stored'
    have gone := h.step (j := p.run) (by omega) (by simpa [front] using new)
      (by simpa using stored')
    rwa [Nat.zero_add] at gone
  simp only [overRun]
  rw [prey.bit, prey.run_toNat, prey.run]
  split_ifs with zeros
  · obtain ⟨c, gone, taken⟩ := overZeros_stores prey predator (inside.trans size) stored
    rw [gone]
    refine ⟨_, rfl, step ?_ taken⟩
    rw [zeros, zipWith_zeros length]
  · have ones : p.fill = true := by simpa using zeros
    refine ⟨_, rfl, step ?_ (addStreamOfEmptyWords_stores stored)⟩
    rw [ones, zipWith_ones length]

theorem tobediscarded_eq (prey : r.prey.At p ps) (predator : r.predator.At q qs) :
    r.tobediscarded = BitVec.ofNat 32 (min p.lits.length q.run) := by
  have enough : r.predator.rlw.runningLength ≥ r.prey.rlw.numberOfLiteralWords ↔
      p.lits.length ≤ q.run := by
    rw [ge_iff_le, BitVec.le_def, prey.literals_toNat, predator.run_toNat]
  simp only [tobediscarded]
  split_ifs with all
  · rw [prey.literals, Nat.min_eq_left (enough.mp all)]
  · rw [predator.run, Nat.min_eq_right (not_le.mp (mt enough.mpr all)).le]

/-- What is left of the run of the predator goes with literal words of the prey. -/
theorem overPredatorRun_gone (h : r.Gone p ps q qs ws k) (after : p.run ≤ k) :
    ∃ r' j, r.overPredatorRun = .ok r' ∧ r'.Gone p ps q qs ws j ∧ p.run ≤ j ∧
      ((p.discard j).lits = [] ∨ (q.discard j).run = 0) := by
  have noRun : (p.discard k).run = 0 := Nat.sub_eq_zero_of_le after
  have lits : (p.discard k).lits.length = p.size - k := by
    rw [← Segment.size_discard, Segment.size, noRun, Nat.zero_add]
  have le := h.le
  have fits := h.predator.fits.run
  have some : r.predator.rlw.runningLength > 0 ↔ 0 < (q.discard k).run := by
    rw [gt_iff_lt, BitVec.lt_def, h.predator.run_toNat]
    rfl
  -- the words that are gone through, and where that leads
  obtain ⟨j, hj⟩ : ∃ j, min (p.discard k).lits.length (q.discard k).run = j := ⟨_, rfl⟩
  have small : (BitVec.ofNat 32 j).toNat = j := by
    rw [BitVec.toNat_ofNat]
    omega
  have part : ((p.discard k).lits.take j).length = j := by
    rw [List.length_take]
    omega
  have ends : (p.discard (k + j)).lits = [] ∨ (q.discard (k + j)).run = 0 := by
    rw [← Segment.discard_discard, ← Segment.discard_discard, ← List.length_eq_zero_iff,
      Segment.discard_run]
    simp only [Segment.discard, List.length_drop] at hj noRun ⊢
    omega
  have step : ∀ {vs c}, vs = List.zipWith (· ||| ·) ((p.discard k).lits.take j)
      (List.replicate j (cleanWord (q.discard k).fill)) →
      c.Stores (ws ++ (Seg.union p q).take k ++ vs) →
      (r.discardFirstWords (BitVec.ofNat 32 j) c).Gone p ps q qs ws (k + j) := by
    intro vs c new stored
    refine h.step (j := j) (by omega) ?_ stored
    rw [Segment.values_of_run_eq_zero cleanWord noRun,
      Segment.take_values_of_le cleanWord (by omega)]
    exact new
  unfold overPredatorRun
  rw [tobediscarded_eq h.prey h.predator, hj, small, h.predator.bit]
  split_ifs with run zeros more
  · have pos : 0 < j := by
      rw [gt_iff_lt, BitVec.lt_def, small] at more
      exact more
    rw [h.prey.readDirty pos (by omega)]
    refine ⟨_, _, rfl, step ?_ (addStreamOfDirtyWords_stores h.stored), by omega, ends⟩
    rw [zeros, zipWith_or_comm, zipWith_zeros part]
  · have none : j = 0 := by
      rw [gt_iff_lt, BitVec.lt_def, small] at more
      exact Nat.eq_zero_of_not_pos more
    subst none
    exact ⟨_, _, rfl, h, after, ends⟩
  · have ones : (q.discard k).fill = true := by simpa using zeros
    refine ⟨_, _, rfl, step ?_ (addStreamOfEmptyWords_stores h.stored), by omega, ends⟩
    rw [ones, zipWith_or_comm, zipWith_ones part]
  · exact ⟨_, _, rfl, h, after, .inr (Nat.eq_zero_of_not_pos (mt some.mpr run))⟩

theorem foldl_add_stores {b : Bitmap} {vs : List Word} (h : b.Stores ws) :
    (vs.foldl (fun c w => c.add w) b).Stores (ws ++ vs) := by
  induction vs generalizing b ws with
  | nil => simpa using h
  | cons v vs ih =>
    rw [List.append_cons]
    exact ih (add_stores h)

/-- The literal words that are left are united one by one. -/
theorem overDirtyWords_stores (h : r.Gone p ps q qs ws k) (after : p.run ≤ k)
    (ends : (p.discard k).lits = [] ∨ (q.discard k).run = 0) :
    ∃ r', r.overDirtyWords = .ok r' ∧ r'.prey.At (p.discard k) ps ∧
      r'.predator.At (q.discard p.size) qs ∧ r'.container.Stores (ws ++ Seg.union p q) := by
  have noRun : (p.discard k).run = 0 := Nat.sub_eq_zero_of_le after
  have lits : (p.discard k).lits.length = p.size - k := by
    rw [← Segment.size_discard, Segment.size, noRun, Nat.zero_add]
  have size := h.size_le
  have le := h.le
  have whole : (Seg.union p q).take p.size = Seg.union p q := by
    refine List.take_of_length_le ?_
    rw [List.length_zipWith, Segment.length_values]
    exact Nat.min_le_left ..
  have some : r.prey.rlw.numberOfLiteralWords > 0 ↔ 0 < p.size - k := by
    rw [gt_iff_lt, BitVec.lt_def, h.prey.literals_toNat, lits]
    rfl
  simp only [overDirtyWords]
  split_ifs with dirty
  · have pos := some.mp dirty
    have noRun' : (q.discard k).run = 0 := by
      rcases ends with none | none
      · rw [none, List.length_nil] at lits
        omega
      · exact none
    have lits' : (q.discard k).lits.length = q.size - k := by
      rw [← Segment.size_discard, Segment.size, noRun', Nat.zero_add]
    have sum : k + (p.size - k) = p.size := by omega
    rw [h.prey.literals, lits, h.prey.readDirty pos (by omega),
      h.predator.readDirty pos (by omega)]
    have gone := h.step (j := p.size - k) (by omega) rfl (foldl_add_stores h.stored)
    rw [Segment.values_of_run_eq_zero cleanWord noRun,
      Segment.values_of_run_eq_zero cleanWord noRun', sum] at gone
    refine ⟨_, rfl, h.prey, gone.predator, ?_⟩
    have stored := gone.stored
    rw [whole] at stored
    exact stored
  · obtain rfl : k = p.size := by
      have := mt some.mpr dirty
      omega
    refine ⟨_, rfl, h.prey, h.predator, ?_⟩
    have stored := h.stored
    rwa [whole] at stored

/-- A round goes through the prey and as much of the predator. -/
theorem run_stores (prey : r.prey.At p ps) (predator : r.predator.At q qs) (le : p.size ≤ q.size)
    (stored : r.container.Stores ws) :
    ∃ r' cur, r.run = .ok r' ∧ r'.prey.At cur ps ∧ r'.predator.At (q.discard p.size) qs ∧
      r'.container.Stores (ws ++ Seg.union p q) := by
  have start : r.Gone p ps q qs ws 0 :=
    ⟨le, Nat.zero_le _, by simpa using prey, by simpa using predator, by simpa using stored⟩
  obtain ⟨s, first, gone⟩ := overRun_gone start
  obtain ⟨t, k, second, gone', after, ends⟩ := overPredatorRun_gone gone le_rfl
  obtain ⟨u, third, prey', predator', stored'⟩ := overDirtyWords_stores gone' after ends
  refine ⟨u, _, ?_, prey', predator', stored'⟩
  rw [run, first]
  change (s.overPredatorRun >>= fun t => t.overDirtyWords) = .ok u
  rw [second]
  exact third

end Round

/-! ## What the loop does -/

section Loop

variable {i j : RawIterator} {p q : Seg} {ps qs : List Seg} {ws : List Word} {c : Bitmap}

/-- The loop always returns, and it has united the words as far as the shorter bitmap reaches. -/
theorem orLoop_stores (hi : i.At p ps) (hj : j.At q qs) (stored : c.Stores ws) :
    ∃ c', orLoop i j c = .ok c' ∧
      c'.Stores (ws ++ List.zipWith (· ||| ·) (Seg.words (p :: ps)) (Seg.words (q :: qs))) := by
  induction n : ps.length + qs.length using Nat.strong_induction_on
    generalizing i j p q ps qs ws c with
  | _ n ih =>
    have sizes : i.rlw.size < j.rlw.size ↔ p.size < q.size := by
      rw [BitVec.lt_def, hi.size_toNat, hj.size_toNat]
    rw [orLoop]
    split_ifs with less
    · have le := (sizes.mp less).le
      obtain ⟨r, cur, run, prey, predator, stored'⟩ :=
        Round.run_stores (r := ⟨i, j, c⟩) hi hj le stored
      rw [run]
      dsimp only
      rw [Seg.words, Segment.zipWith_all cleanWord _ le, ← List.append_assoc]
      cases ps with
      | nil =>
        rw [prey.hasNext_nil]
        exact ⟨_, rfl, by simpa using stored'⟩
      | cons p' ps =>
        rw [prey.hasNext_cons]
        exact ih _ (by simp only [List.length_cons] at n; omega) prey.next predator stored' rfl
    · have le := not_lt.mp (mt sizes.mpr less)
      obtain ⟨r, cur, run, prey, predator, stored'⟩ :=
        Round.run_stores (r := ⟨j, i, c⟩) hj hi le stored
      rw [run]
      dsimp only
      rw [zipWith_or_comm, Seg.words, Segment.zipWith_all cleanWord _ le, ← List.append_assoc]
      cases qs with
      | nil =>
        rw [prey.hasNext_nil]
        exact ⟨_, rfl, by simpa using stored'⟩
      | cons q' qs =>
        rw [prey.hasNext_cons]
        obtain ⟨c', loop, stored''⟩ :=
          ih _ (by simp only [List.length_cons] at n; omega) predator prey.next stored' rfl
        rw [zipWith_or_comm (Seg.words _)] at stored''
        exact ⟨c', loop, stored''⟩

/-- The first marker. -/
theorem Has.first {b : Bitmap} {init : List Seg} {cur s : Seg} {rest : List Seg}
    (h : b.Has init cur) (segments : init ++ [cur] = s :: rest) :
    b.rawIterator.hasNext = true ∧ b.rawIterator.next.At s rest := by
  have buffer : b.rawIterator.parent = [] ++ Seg.encodeAll (s :: rest) := by
    rw [← segments, rawIterator, h.buffer]
    simp [Seg.encodeAll]
  refine ⟨?_, RawIterator.next_at buffer rfl fun t ht => ?_⟩
  · rw [RawIterator.hasNext, buffer]
    simp [rawIterator, Seg.encodeAll, Seg.encode]
  · rw [← segments] at ht
    rcases List.mem_append.mp ht with old | last
    · exact h.fits t old
    · exact List.mem_singleton.mp last ▸ h.fits_cur

end Loop

/-- Both operands have the same size afterwards, and denote what they did before. -/
theorem makeSameSize_denotes {a b : Bitmap} {s t : Finset ℕ} (ha : a.Denotes s) (hb : b.Denotes t) :
    (makeSameSize a b).1.Denotes s ∧ (makeSameSize a b).2.Denotes t ∧
      (makeSameSize a b).1.sizeinbits = (makeSameSize a b).2.sizeinbits := by
  unfold makeSameSize
  split_ifs with less more
  · obtain ⟨padded, size⟩ := hb.padWithZeroes less
    exact ⟨ha, padded, size.symm⟩
  · obtain ⟨padded, size⟩ := ha.padWithZeroes more
    exact ⟨padded, hb, size⟩
  · exact ⟨ha, hb, le_antisymm (not_lt.mp less) (not_lt.mp more)⟩

/-- The runs of the two, made the same size, are merged into the union. -/
theorem Denotes.logicalor {a b : Bitmap} {s t : Finset ℕ} (ha : a.Denotes s) (hb : b.Denotes t) :
    ∃ c, a.logicalor b = .ok ((makeSameSize a b).1, (makeSameSize a b).2, c) ∧
      c.Denotes (s ∪ t) := by
  obtain ⟨ha', hb', same⟩ := makeSameSize_denotes ha hb
  unfold Bitmap.logicalor
  generalize makeSameSize a b = both at *
  obtain ⟨a', b'⟩ := both
  obtain ⟨_, ⟨init, cur, hasA, rfl⟩, coverA, memA⟩ := ha'.stores
  obtain ⟨_, ⟨init', cur', hasB, rfl⟩, coverB, memB⟩ := hb'.stores
  obtain ⟨q, qs, segsA⟩ : ∃ q qs, init ++ [cur] = q :: qs := List.exists_cons_of_ne_nil (by simp)
  obtain ⟨p, ps, segsB⟩ : ∃ p ps, init' ++ [cur'] = p :: ps := List.exists_cons_of_ne_nil (by simp)
  obtain ⟨someA, atA⟩ := hasA.first segsA
  obtain ⟨someB, atB⟩ := hasB.first segsB
  obtain ⟨c, loop, stored⟩ := orLoop_stores atB atA new_stores
  rw [segsA] at coverA memA
  rw [segsB] at coverB memB
  dsimp only at someA someB atA atB loop same coverA coverB ⊢
  rw [someA, someB, loop]
  refine ⟨c.setSizeInBits a'.sizeinbits, rfl, ⟨_, setSizeInBits_stores stored _, ?_, fun i => ?_⟩,
    fun i hi => ?_⟩
  · rw [List.nil_append, List.length_zipWith]
    change a'.sizeinbits ≤ _
    omega
  · rw [List.nil_append, Finset.mem_union, memA, memB]
    by_cases inside : i < 32 * (Seg.words (p :: ps)).length ∧ i < 32 * (Seg.words (q :: qs)).length
    · rw [wordsBit_zipWith_or inside.1 inside.2, Bool.or_eq_true, or_comm]
    · -- no set has a member beyond the size, which both reach
      have beyond : a'.sizeinbits ≤ i := by omega
      have outA : i ∉ s := fun hi => absurd (ha'.below i hi) (not_lt.mpr beyond)
      have outB : i ∉ t := fun hi => absurd (hb'.below i hi) (not_lt.mpr (same ▸ beyond))
      rw [← memA, ← memB, wordsBit_of_le (by rw [List.length_zipWith]; omega)]
      simp [outA, outB]
  · rcases Finset.mem_union.mp hi with left | right
    · exact ha'.below i left
    · exact (hb'.below i right).trans_eq same.symm

/-- `logicalor` returns for any two well-formed bitmaps. The result is their union, and the
operands denote what they did before. -/
theorem logicalor_denotes {a b : Bitmap} {s t : Finset ℕ} (ha : a.Denotes s) (hb : b.Denotes t) :
    ∃ a' b' c, logicalor a b = .ok (a', b', c) ∧ a'.Denotes s ∧ b'.Denotes t ∧
      c.Denotes (s ∪ t) := by
  obtain ⟨ha', hb', -⟩ := makeSameSize_denotes ha hb
  obtain ⟨c, run, union⟩ := ha.logicalor hb
  exact ⟨_, _, c, run, ha', hb', union⟩

/-- Two bitmaps of different sizes, so that one is padded. -/
theorem logicalor_denotes_pair : ∃ a b c,
    logicalor (new.set 5) (new.set 100000) = .ok (a, b, c) ∧ a.Denotes {5} ∧ b.Denotes {100000} ∧
      c.Denotes ({5} ∪ {100000}) :=
  logicalor_denotes (set_denotes 5) (set_denotes 100000)

end Bitmap

end LibdftDr
