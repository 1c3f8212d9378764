import LibdftDr.Core.Places
import LibdftDr.Core.Transfer

/-!
# Byte swaps

BSWAP reverses the tags of a register in place, MOVBE reads and writes memory in reversed order.
Loading reversed is loading and then swapping; storing reversed is swapping, storing and swapping
back. A reversed store that is loaded reversed leaves the register as it was.
-/
namespace LibdftDr
open Library Library.Action

/-- The state with the tags `v` in the `n` bytes of a row from `start` on. -/
def Shadow.withBytes (s : Shadow) (row start n : ℕ) (v : ℕ → Tag) : Shadow :=
  { s with
    gprFile := fun r b =>
      if r = row ∧ start ≤ b ∧ b < start + n then v (b - start) else s.gprFile r b }

/-- The shadow memory after the tags `v` have been stored from `addr` on. -/
def storeBytes (dir : TagDir) (addr : ADDRINT) (v : ℕ → Tag) : ℕ → TagDir
  | 0 => dir
  | n + 1 => tagmapSetbWithTag (storeBytes dir addr v n) (byteAt addr n) (v n)

namespace Shadow

variable {s : Shadow} {row start n i : ℕ} {v w : ℕ → Tag}

theorem withBytes_byte (hi : i < n) :
    (s.withBytes row start n v).gprFile row (start + i) = v i := by
  refine (if_pos ⟨rfl, by omega, by omega⟩).trans ?_
  rw [Nat.add_sub_cancel_left]

theorem withBytes_congr (same : ∀ i < n, v i = w i) :
    s.withBytes row start n v = s.withBytes row start n w := by
  unfold withBytes
  congr 1
  funext r b
  split_ifs with inside
  · exact same _ (by omega)
  · rfl

/-- The bytes as they are. -/
theorem withBytes_self (same : ∀ i < n, v i = s.gprFile row (start + i)) :
    s.withBytes row start n v = s := by
  have file : (s.withBytes row start n v).gprFile = s.gprFile := by
    funext r b
    simp only [withBytes]
    split_ifs with inside
    · obtain ⟨rfl, lo, hi⟩ := inside
      rw [same _ (by omega)]
      congr 1
      omega
    · rfl
  exact congrArg (fun file => { s with gprFile := file }) file

theorem withBytes_withBytes :
    (s.withBytes row start n v).withBytes row start n w = s.withBytes row start n w := by
  unfold withBytes
  congr 1
  funext r b
  split_ifs with inside
  · rfl
  · exact if_neg inside

theorem withBytes_withTagDir (dir : TagDir) : (s.withBytes row start n v).withTagDir dir =
    (s.withTagDir dir).withBytes row start n v := rfl

/-- One more byte. -/
theorem withBytes_succ : s.withBytes row start (n + 1) v =
    (s.withBytes row start n v).withGpr row (start + n) (v n) := by
  unfold withBytes withGpr
  congr 1
  funext r b
  by_cases row' : r = row
  · subst row'
    by_cases last : b = start + n
    · subst last
      simp
    · have lt : b < start + (n + 1) ↔ b < start + n := by omega
      simp [last, lt]
  · simp [row']

theorem withBytes_frame {c : Cell} (hc : c ∉ regSpan row start n) :
    (s.withBytes row start n v).cell c = s.cell c := by
  cases c with
  | mem a => rfl
  | reg r b =>
    rw [mem_regSpan] at hc
    exact if_neg hc

/-- A byte among them is replaced. -/
theorem withBytes_withGpr (hi : i < n) (t : Tag) :
    (s.withBytes row start n v).withGpr row (start + i) t =
      s.withBytes row start n (Function.update v i t) := by
  unfold withBytes withGpr
  congr 1
  funext r b
  by_cases row' : r = row
  · subst row'
    by_cases here : b = start + i
    · subst here
      simp [hi]
    · have other : start ≤ b → b - start ≠ i := by omega
      simp only [Function.update_self, Function.update_of_ne here, true_and]
      split_ifs with inside
      · rw [Function.update_of_ne (other inside.1)]
      · rfl
  · simp [row']

end Shadow

/-! ## The loops -/

section Loops

variable {s : Shadow} {row start n : ℕ} {addr : ADDRINT} {v : ℕ → Tag} {body : ℕ → Engine PUnit}

/-- A loop that writes the bytes of a span, whatever the registers hold. -/
theorem load_run (span : GprSpan row start n) (writes : ∀ i < n, ∀ u : Shadow,
    u.tagDir = s.tagDir → body i u = gprSet row (start + i) (v i) u) :
    loop n body s = .ok (⟨⟩, s.withBytes row start n v) := by
  induction n with
  | zero =>
    have none : s.withBytes row start 0 v = s := Shadow.withBytes_self (by simp)
    rw [none]
    rfl
  | succ n ih =>
    have run := ih ⟨span.row, by have := span.bytes; omega⟩ fun i hi => writes i (by omega)
    rw [loop_succ_of_ok run, writes n (by omega) (s.withBytes row start n v) rfl,
      Shadow.withBytes_succ]
    exact if_pos (span.inFile (by omega))

/-- A loop that stores tags which the memory does not change. -/
theorem store_run (writes : ∀ i < n, ∀ u : Shadow,
    u.gprFile = s.gprFile → body i u = setb (byteAt addr i) (v i) u) :
    loop n body s = .ok (⟨⟩, s.withTagDir (storeBytes s.tagDir addr v n)) := by
  induction n with
  | zero => rfl
  | succ n ih =>
    have run := ih fun i hi => writes i (by omega)
    rw [loop_succ_of_ok run, writes n (by omega) (s.withTagDir (storeBytes s.tagDir addr v n)) rfl]
    rfl

theorem movM2r_moves (span : GprSpan row start n) (range : InRange addr n) :
    movM2r row start addr n s =
      .ok (⟨⟩, s.withBytes row start n fun i => s.tagDir.tagAt (byteAt addr i)) := by
  refine load_run span fun i hi u dir => ?_
  have read : getb (byteAt addr i) u = .ok (s.tagDir.tagAt (byteAt addr i), u) := by
    rw [← dir]
    exact getb_of_le (range i hi) u
  rw [bind_of_ok read]

theorem movbeM2r_moves (span : GprSpan row start n) (range : InRange addr n) :
    movbeM2r row start addr n s =
      .ok (⟨⟩, s.withBytes row start n fun i => s.tagDir.tagAt (byteAt addr (n - 1 - i))) := by
  have looped : loop n (fun i => do
      let t ← getb (byteAt addr n - 1 - BitVec.ofNat 64 i)
      gprSet row (start + i) t) s =
        .ok (⟨⟩, s.withBytes row start n fun i => s.tagDir.tagAt (byteAt addr (n - 1 - i))) := by
    refine load_run span fun i hi u dir => ?_
    have read : getb (byteAt addr n - 1 - BitVec.ofNat 64 i) u =
        .ok (s.tagDir.tagAt (byteAt addr (n - 1 - i)), u) := by
      rw [byteAt_sub hi, ← dir]
      exact getb_of_le (range _ (by omega)) u
    rw [bind_of_ok read]
  unfold movbeM2r
  split_ifs with zero
  · subst zero
    exact looped
  · exact looped

theorem movR2m_moves (span : GprSpan row start n) : movR2m addr row start n s =
    .ok (⟨⟩, s.withTagDir
      (storeBytes s.tagDir addr (fun i => s.gprFile row (start + i)) n)) := by
  refine store_run fun i hi u file => ?_
  have read : gprGet row (start + i) u = .ok (s.gprFile row (start + i), u) := by
    rw [gprGet, if_pos (span.inFile hi), file]
  rw [bind_of_ok read]

theorem movbeR2m_moves (span : GprSpan row start n) : movbeR2m addr row start n s =
    .ok (⟨⟩, s.withTagDir
      (storeBytes s.tagDir addr (fun i => s.gprFile row (start + (n - 1 - i))) n)) := by
  unfold movbeR2m
  split_ifs with zero
  · subst zero
    rfl
  · refine store_run fun i hi u file => ?_
    have last : start + n - 1 - i = start + (n - 1 - i) := by omega
    have read : gprGet row (start + n - 1 - i) u =
        .ok (s.gprFile row (start + (n - 1 - i)), u) := by
      rw [last, gprGet, if_pos (span.inFile (by omega)), file]
    rw [bind_of_ok read]

/-- The bytes of a span after `k` rounds of the swap: the outer ones have changed places. -/
def swapped (row : ℕ → Tag) (start n k i : ℕ) : Tag :=
  if i < k ∨ n - 1 - i < k then row (start + (n - 1 - i)) else row (start + i)

theorem swapped_succ {f : ℕ → Tag} {k i : ℕ} (hk : k < n / 2) (hi : i < n) :
    Function.update (Function.update (swapped f start n k) k (f (start + (n - 1 - k))))
      (n - 1 - k) (f (start + k)) i = swapped f start n (k + 1) i := by
  have mirror : n - 1 - (n - 1 - k) = k := by omega
  by_cases outer : i = n - 1 - k
  · subst outer
    rw [Function.update_self, swapped, if_pos (by omega), mirror]
  rw [Function.update_of_ne outer]
  by_cases inner : i = k
  · subst inner
    rw [Function.update_self, swapped, if_pos (by omega)]
  have unchanged : (i < k ∨ n - 1 - i < k) ↔ (i < k + 1 ∨ n - 1 - i < k + 1) := by omega
  rw [Function.update_of_ne inner, swapped, swapped]
  simp only [unchanged]

/-- One round changes the places of two bytes that are still where they were. -/
theorem swap_round (span : GprSpan row start n) {k : ℕ} (hk : k < n / 2) :
    (do
      let tmp ← gprGet row (start + k)
      let t ← gprGet row (start + n - 1 - k)
      gprSet row (start + k) t
      gprSet row (start + n - 1 - k) tmp : Engine PUnit)
        (s.withBytes row start n (swapped (s.gprFile row) start n k)) =
      .ok (⟨⟩, s.withBytes row start n (swapped (s.gprFile row) start n (k + 1))) := by
  have last : start + n - 1 - k = start + (n - 1 - k) := by omega
  have lt : k < n := by omega
  have lt' : n - 1 - k < n := by omega
  have get : ∀ i < n, ∀ v, gprGet row (start + i) (s.withBytes row start n v) =
      .ok (v i, s.withBytes row start n v) := by
    intro i hi v
    rw [gprGet, if_pos (span.inFile hi), Shadow.withBytes_byte hi]
  have set : ∀ i < n, ∀ v t, gprSet row (start + i) t (s.withBytes row start n v) =
      .ok (⟨⟩, s.withBytes row start n (Function.update v i t)) := by
    intro i hi v t
    rw [gprSet, if_pos (span.inFile hi), Shadow.withBytes_withGpr hi]
  have front : swapped (s.gprFile row) start n k k = s.gprFile row (start + k) :=
    if_neg (by omega)
  have back : swapped (s.gprFile row) start n k (n - 1 - k) =
      s.gprFile row (start + (n - 1 - k)) := if_neg (by omega)
  rw [last, bind_of_ok (get k lt _), bind_of_ok (get _ lt' _), bind_of_ok (set k lt _ _),
    set _ lt' _ _, front, back]
  exact congrArg (fun t => Except.ok (PUnit.unit, t))
    (Shadow.withBytes_congr fun i hi => swapped_succ hk hi)

theorem bswapReg_moves (span : GprSpan row start n) : bswapReg row start n s =
    .ok (⟨⟩, s.withBytes row start n fun i => s.gprFile row (start + (n - 1 - i))) := by
  unfold bswapReg
  split_ifs with small
  · have same : (s.withBytes row start n fun i => s.gprFile row (start + (n - 1 - i))) = s :=
      Shadow.withBytes_self fun i hi => by
        obtain rfl : n = 1 := by omega
        rw [Nat.sub_self, Nat.zero_sub, Nat.lt_one_iff.mp hi]
    rw [same]
    rfl
  · have rounds : ∀ k ≤ n / 2, loop k (fun i => do
        let tmp ← gprGet row (start + i)
        let t ← gprGet row (start + n - 1 - i)
        gprSet row (start + i) t
        gprSet row (start + n - 1 - i) tmp) s =
          .ok (⟨⟩, s.withBytes row start n (swapped (s.gprFile row) start n k)) := by
      intro k hk
      induction k with
      | zero =>
        have same : s.withBytes row start n (swapped (s.gprFile row) start n 0) = s :=
          Shadow.withBytes_self fun i _ => if_neg (by omega)
        rw [same]
        rfl
      | succ k ih =>
        rw [loop_succ_of_ok (ih (by omega))]
        exact swap_round span (by omega)
    rw [rounds (n / 2) le_rfl]
    refine congrArg (fun t => Except.ok (PUnit.unit, t)) (Shadow.withBytes_congr fun i hi => ?_)
    -- after half the rounds only the middle byte of an odd width has not moved
    by_cases outer : i < n / 2 ∨ n - 1 - i < n / 2
    · exact if_pos outer
    · have middle : n - 1 - i = i := by omega
      rw [swapped, if_neg outer, middle]

/-! ## What is stored -/

theorem storeBytes_congr {w : ℕ → Tag} (same : ∀ i < n, v i = w i) (dir : TagDir) :
    storeBytes dir addr v n = storeBytes dir addr w n := by
  induction n with
  | zero => rfl
  | succ n ih => rw [storeBytes, storeBytes, ih fun i hi => same i (by omega), same n (by omega)]

theorem storeBytes_tagAt (range : InRange addr n) (small : n ≤ 2 ^ 64) (dir : TagDir) {i : ℕ}
    (hi : i < n) : (storeBytes dir addr v n).tagAt (byteAt addr i) = v i := by
  induction n with
  | zero => omega
  | succ n ih =>
    rw [storeBytes, tagmapSetbWithTag, TagDir.tagAt_setb]
    by_cases last : i = n
    · subst last
      exact if_pos ⟨rfl, range i hi⟩
    · have other : ¬ (byteAt addr i = byteAt addr n ∧ byteAt addr n ≤ lastAddress) := fun h =>
        last (Place.byteAt_inj (by omega) (by omega) h.1)
      rw [if_neg other]
      exact ih (fun j hj => range j (by omega)) (by omega) (by omega)

theorem storeBytes_frame (dir : TagDir) {c : Cell} (hc : c ∉ memSpan addr n) :
    (s.withTagDir (storeBytes dir addr v n)).cell c = (s.withTagDir dir).cell c := by
  cases c with
  | reg r b => rfl
  | mem a =>
    change (storeBytes dir addr v n).tagAt a = dir.tagAt a
    induction n with
    | zero => rfl
    | succ n ih =>
      have other : ¬ (a = byteAt addr n ∧ byteAt addr n ≤ lastAddress) := by
        rintro ⟨rfl, -⟩
        exact hc (mem_memSpan_self (by omega))
      rw [storeBytes, tagmapSetbWithTag, TagDir.tagAt_setb, if_neg other]
      apply ih
      rintro ⟨i, hi, same⟩
      exact hc ⟨i, by omega, same⟩

end Loops

/-! ## MOVBE -/

section Movbe

variable {s : Shadow} {row start n : ℕ} {addr : ADDRINT}

/-- A reversed load is a load and a swap. -/
theorem movbeM2r_eq (span : GprSpan row start n) (range : InRange addr n) :
    (do movM2r row start addr n; bswapReg row start n : Engine PUnit) s =
      movbeM2r row start addr n s := by
  rw [bind_of_ok (movM2r_moves span range), bswapReg_moves span, movbeM2r_moves span range,
    Shadow.withBytes_withBytes]
  refine congrArg (fun t => Except.ok (PUnit.unit, t)) (Shadow.withBytes_congr fun i hi => ?_)
  exact Shadow.withBytes_byte (by omega)

/-- A reversed store is a store between two swaps. -/
theorem movbeR2m_eq (span : GprSpan row start n) :
    (do bswapReg row start n; movR2m addr row start n; bswapReg row start n : Engine PUnit) s =
      movbeR2m addr row start n s := by
  rw [bind_of_ok (bswapReg_moves span), bind_of_ok (movR2m_moves span), bswapReg_moves span,
    movbeR2m_moves span]
  -- the swapped bytes are the ones that the reversed store reads
  have bytes : ∀ i < n,
      (s.withBytes row start n fun i => s.gprFile row (start + (n - 1 - i))).gprFile row
        (start + i) = s.gprFile row (start + (n - 1 - i)) := fun i hi => Shadow.withBytes_byte hi
  rw [storeBytes_congr bytes]
  rw [Shadow.withBytes_withTagDir, Shadow.withBytes_withBytes]
  refine congrArg (fun t => Except.ok (PUnit.unit, t)) (Shadow.withBytes_self fun i hi => ?_)
  have mirror : n - 1 - (n - 1 - i) = i := by omega
  exact (bytes (n - 1 - i) (by omega)).trans (by rw [mirror]; rfl)

/-- What was stored reversed and is loaded reversed from the same address is what it was. -/
theorem movbeM2r_of_movbeR2m (span : GprSpan row start n) (range : InRange addr n) {t : Shadow}
    (run : movbeR2m addr row start n s = .ok (⟨⟩, t)) :
    movbeM2r row start addr n t = .ok (⟨⟩, t) := by
  rw [movbeR2m_moves span] at run
  cases run
  rw [movbeM2r_moves span range]
  refine congrArg (fun t => Except.ok (PUnit.unit, t)) (Shadow.withBytes_self fun i hi => ?_)
  have small : n ≤ 2 ^ 64 := by
    have := span.bytes
    rw [TAGS_PER_GPR] at this
    omega
  have mirror : n - 1 - (n - 1 - i) = i := by omega
  exact (storeBytes_tagAt range small s.tagDir (by omega)).trans (by rw [mirror]; rfl)

/-- A reversed load is a load and a swap, a reversed store is a store between two swaps, and the
two undo each other. They change their destination only. -/
theorem movbe_swaps (span : GprSpan row start n) (range : InRange addr n) (s : Shadow) :
    (∃ t, movbeM2r row start addr n s = .ok (⟨⟩, t) ∧
      (do movM2r row start addr n; bswapReg row start n : Engine PUnit) s = .ok (⟨⟩, t) ∧
      ∀ c ∉ regSpan row start n, t.cell c = s.cell c) ∧
    ∃ t, movbeR2m addr row start n s = .ok (⟨⟩, t) ∧
      (do bswapReg row start n; movR2m addr row start n; bswapReg row start n : Engine PUnit) s =
        .ok (⟨⟩, t) ∧
      movbeM2r row start addr n t = .ok (⟨⟩, t) ∧
      ∀ c ∉ memSpan addr n, t.cell c = s.cell c := by
  refine ⟨⟨_, movbeM2r_moves span range, ?_, fun c hc => Shadow.withBytes_frame hc⟩,
    ⟨_, movbeR2m_moves span, ?_, ?_, fun c hc => storeBytes_frame s.tagDir hc⟩⟩
  · rw [movbeM2r_eq span range, movbeM2r_moves span range]
  · rw [movbeR2m_eq span, movbeR2m_moves span]
  · exact movbeM2r_of_movbeR2m span range (movbeR2m_moves span)

end Movbe

/-- Three bytes into EAX, the first of them tainted, and from there to another address. -/
theorem movbe_swaps_three :
    ∃ t u, movbeM2r DFT_REG_RAX 0 0x1000 3 (oneTainted 0x1000) = .ok (⟨⟩, t) ∧
      (do movM2r DFT_REG_RAX 0 0x1000 3; bswapReg DFT_REG_RAX 0 3 : Engine PUnit)
        (oneTainted 0x1000) = .ok (⟨⟩, t) ∧
      t.cell (.reg DFT_REG_RAX 3) = clearedVal ∧
      movbeR2m 0x2000 DFT_REG_RAX 0 3 t = .ok (⟨⟩, u) ∧
      movbeM2r DFT_REG_RAX 0 0x2000 3 u = .ok (⟨⟩, u) ∧
      u.cell (.mem 0x1000) = t.cell (.mem 0x1000) := by
  have span : GprSpan DFT_REG_RAX 0 3 := ⟨by decide, by decide⟩
  have first : ∀ i < 3, byteAt 0x1000 i ≤ lastAddress := by decide
  have second : ∀ i < 3, byteAt 0x2000 i ≤ lastAddress := by decide
  obtain ⟨⟨t, load, swap, frame⟩, -⟩ := movbe_swaps span first (oneTainted 0x1000)
  obtain ⟨-, u, store, -, back, frame'⟩ := movbe_swaps span second t
  refine ⟨t, u, load, swap, frame _ ?_, store, back, frame' _ ?_⟩
  · rw [mem_regSpan]
    omega
  · rintro ⟨i, hi, e⟩
    have apart : ∀ i < 3, (0x1000 : ADDRINT) ≠ byteAt 0x2000 i := by decide
    exact apart i hi (Cell.mem.inj e)

end LibdftDr
