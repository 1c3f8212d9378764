import LibdftDr.Core.Transfer
import LibdftDr.Syscall.Hooks

/-!
# Painted and cleared ranges

What the two loops of the post hooks leave behind, byte by byte. A cleared range is empty
whatever its addresses are. A painted byte denotes its label as long as the label sets have
room in the table: the first set past the last id gets the id of the empty set.
-/
namespace LibdftDr
open Library Library.Action

theorem TagDir.tagAt_clrb (dir : TagDir) (addr b : ADDRINT) :
    (tagmapSetbWithTag dir addr clearedVal).tagAt b =
      if b = addr then clearedVal else dir.tagAt b := by
  rw [tagmapSetbWithTag, TagDir.tagAt_setb]
  by_cases above : addr ≤ lastAddress
  · simp only [above, and_true]
  · have empty := TagDir.tagAt_of_not_le dir above
    grind

/-- After clearing, the range is empty and the rest is as before. -/
theorem clearBytes_run (s : Shadow) (buf : ADDRINT) (n : ℕ) : ∃ dir,
    clearBytes buf n s = .ok (⟨⟩, s.withTagDir dir) ∧
      (∀ i < n, dir.tagAt (byteAt buf i) = clearedVal) ∧
      ∀ a, Cell.mem a ∉ memSpan buf n → dir.tagAt a = s.tagDir.tagAt a := by
  induction n with
  | zero => exact ⟨s.tagDir, rfl, by simp, by simp⟩
  | succ n ih =>
    obtain ⟨dir, run, cleared, kept⟩ := ih
    refine ⟨tagmapSetbWithTag dir (byteAt buf n) clearedVal, ?_, fun i hi => ?_, fun a ha => ?_⟩
    · rw [clearBytes, loop_succ_of_ok run]
      rfl
    · rw [TagDir.tagAt_clrb]
      split_ifs with same
      · rfl
      · exact cleared i (by grind)
    · rw [TagDir.tagAt_clrb, if_neg, kept a]
      · rintro ⟨i, hi, e⟩
        exact ha ⟨i, by omega, e⟩
      · rintro rfl
        exact ha (mem_memSpan_self (by omega))

/-- Clearing changes nothing exactly when there was nothing to clear. -/
theorem clearBytes_keeps_iff {s t : Shadow} {buf : ADDRINT} {n : ℕ}
    (run : clearBytes buf n s = .ok (⟨⟩, t)) :
    (∀ a, t.cell (.mem a) = s.cell (.mem a)) ↔ ∀ c ∈ memSpan buf n, s.cell c = clearedVal := by
  obtain ⟨dir, run', cleared, kept⟩ := clearBytes_run s buf n
  cases run.symm.trans run'
  constructor
  · rintro same c ⟨i, hi, rfl⟩
    exact (same _).symm.trans (cleared i hi)
  · intro empty a
    by_cases h : Cell.mem a ∈ memSpan buf n
    · rw [empty _ h]
      obtain ⟨i, hi, e⟩ := h
      cases e
      exact cleared i hi
    · exact kept a h

/-! ## Painting -/

/-- The label sets of a painted range. -/
def labelSets (start : UINT64) (n : ℕ) : Finset (Finset ℕ) :=
  (Finset.range n).image fun i => {(offsetLabel start i).toNat}

theorem labelSets_succ (start : UINT64) (n : ℕ) :
    labelSets start (n + 1) = insert {(offsetLabel start n).toNat} (labelSets start n) := by
  rw [labelSets, Finset.range_add_one, Finset.image_insert]
  rfl

theorem Shadow.RoomFor.of_length_le {s : Shadow} (sound : s.Sound) {n : ℕ}
    (h : s.sets.gSets.length + n ≤ idSpace) (start : UINT64) : s.RoomFor (labelSets start n) :=
  Shadow.RoomFor.of_card_le sound h (Finset.card_image_le.trans_eq (Finset.card_range n))

/-- `t` is `s` with `n` bytes painted. -/
structure Shadow.Painted (s t : Shadow) (buf : ADDRINT) (start : UINT64) (n : ℕ) : Prop where
  exact : t.sets.Exact
  stored : t.sets.stored = s.sets.stored ∪ labelSets start n
  bytes : ∀ i < n, t.labelsOf (.mem (byteAt buf i)) = {(offsetLabel start i).toNat}

theorem tagSet_run {s : Shadow} (label : UINT32) (h : s.RoomFor {{label.toNat}}) :
    (Tag.set label s.sets).2.Exact ∧
      (Tag.set label s.sets).2.stored = insert {label.toNat} s.sets.stored ∧
      (Tag.set label s.sets).2.setOf (Tag.set label s.sets).1 = {label.toNat} := by
  have one : (Ewah.set label).toFinset = {label.toNat} := Ascending.toFinset_singleton _
  obtain ⟨stored, length⟩ := SetTable.internSet_stored h.1 (Ewah.set label)
  have room : (Tag.set label s.sets).2.gSets.length ≤ idSpace := by
    refine length.trans_le ?_
    rw [stored, one, Finset.insert_eq, Finset.union_comm]
    exact h.2
  obtain ⟨exact', denotes⟩ := SetTable.tagSet_exact h.1 label room
  exact ⟨exact', by rw [← one]; exact stored, denotes⟩

/-- The state after one more byte has been painted. -/
def Shadow.paintByte (s : Shadow) (addr : ADDRINT) (label : UINT32) : Shadow :=
  (s.withSets (Tag.set label s.sets).2).withTagDir
    (tagmapSetbWithTag s.tagDir addr (Tag.set label s.sets).1)

theorem paintByte_run {s : Shadow} {addr : ADDRINT} (label : UINT32) (h : addr ≤ lastAddress) :
    (do let _ ← getb addr
        let t ← setTag label
        setb addr t : Engine PUnit) s = .ok (⟨⟩, s.paintByte addr label) := by
  rw [bind_of_ok (getb_of_le h s)]
  rfl

theorem InRange.byteAt_inj {addr : ADDRINT} {n i j : ℕ} (h : InRange addr n) (hi : i < n)
    (hj : j < n) (e : byteAt addr i = byteAt addr j) : i = j := by
  have := congrArg BitVec.toNat e
  rw [h.successive i hi, h.successive j hj] at this
  omega

theorem Shadow.Painted.step {s t : Shadow} {buf : ADDRINT} {start : UINT64} {n : ℕ}
    (h : s.Painted t buf start n) (sound : t.Sound) (inRange : InRange buf (n + 1))
    (room : s.RoomFor (labelSets start (n + 1))) :
    s.Painted (t.paintByte (byteAt buf n) (offsetLabel start n)) buf start (n + 1) := by
  have here := inRange n (by omega)
  have union : t.sets.stored ∪ {{(offsetLabel start n).toNat}} =
      s.sets.stored ∪ labelSets start (n + 1) := by
    rw [h.stored, labelSets_succ, Finset.union_assoc, Finset.union_comm _ {_}, Finset.insert_eq]
  obtain ⟨exact', stored, denotes⟩ := tagSet_run (s := t) (offsetLabel start n)
    ⟨h.exact, union ▸ room.2⟩
  have grows := SetTable.tagSet_grows (offsetLabel start n) t.sets
  refine ⟨exact', ?_, fun i hi => ?_⟩
  · rw [← union, Finset.union_comm, ← Finset.insert_eq]
    exact stored
  · have cell : (t.paintByte (byteAt buf n) (offsetLabel start n)).cell (.mem (byteAt buf i)) =
        if byteAt buf i = byteAt buf n ∧ byteAt buf n ≤ lastAddress
          then (Tag.set (offsetLabel start n) t.sets).1 else t.cell (.mem (byteAt buf i)) :=
      TagDir.tagAt_setb ..
    rw [Shadow.labelsOf, cell]
    obtain rfl | lt : i = n ∨ i < n := by omega
    · rw [if_pos ⟨rfl, here⟩]
      exact denotes
    · rw [if_neg fun e => absurd (inRange.byteAt_inj hi (by omega) e.1) lt.ne]
      exact (grows.setOf (sound.known _)).trans (h.bytes i lt)

/-- With room for the labels, each byte of the range gets its own, and nothing else changes. -/
theorem paintBytes_run {s : Shadow} {buf : ADDRINT} {start : UINT64} {n : ℕ} (sound : s.Sound)
    (inRange : InRange buf n) (room : s.RoomFor (labelSets start n)) :
    ∃ t, paintBytes buf start n s = .ok (⟨⟩, t) ∧ t.Sound ∧ Shadow.Le (memSpan buf n) s t ∧
      s.Painted t buf start n := by
  have flow : ∀ k, Flow (memSpan buf k) Set.univ ∅ (InRange buf k) (fun _ => ∅)
      (paintBytes buf start k) := fun k => paintBytes_flow subset_rfl (Set.subset_univ _)
  induction n with
  | zero =>
    refine ⟨s, rfl, sound, (Shadow.world _ Set.univ).refl s, room.1, ?_, by simp⟩
    simp [labelSets]
  | succ n ih =>
    obtain ⟨t, run, sound', -, painted⟩ := ih (fun i hi => inRange i (by omega))
      (room.mono (by rw [labelSets_succ]; exact Finset.subset_insert _ _))
    have run' : paintBytes buf start (n + 1) s =
        .ok (⟨⟩, t.paintByte (byteAt buf n) (offsetLabel start n)) := by
      rw [paintBytes, loop_succ_of_ok run]
      exact paintByte_run _ (inRange n (by omega))
    obtain ⟨-, sound'', -, le⟩ := (flow (n + 1)).of_ok sound sound.within_univ run'
    exact ⟨_, run', sound'', le, painted.step sound' inRange room⟩

/-! ## Filling -/

/-- The common end of the hooks: a range is painted from an offset on, or cleared. -/
def fillBytes (buf : ADDRINT) (n : ℕ) : Option UINT64 → Engine PUnit
  | some start => paintBytes buf start n
  | none => clearBytes buf n

/-- What filling leaves in byte `i`. -/
def fillLabels (start : Option UINT64) (i : ℕ) : Finset ℕ :=
  start.elim ∅ fun start => {(offsetLabel start i).toNat}

/-- `t` is `s` with a range filled. -/
structure Shadow.Filled (s t : Shadow) (buf : ADDRINT) (start : Option UINT64) (n : ℕ) : Prop where
  sound : t.Sound
  le : Shadow.Le (memSpan buf n) s t
  bytes : ∀ i < n, t.labelsOf (.mem (byteAt buf i)) = fillLabels start i
  /-- A cell keeps its tag where it keeps its labels. -/
  kept_iff : ∀ c, t.cell c = s.cell c ↔ t.labelsOf c = s.labelsOf c

theorem fillBytes_run {s : Shadow} {buf : ADDRINT} {start : Option UINT64} {n : ℕ} (sound : s.Sound)
    (inRange : start.isSome → InRange buf n)
    (room : ∀ offset ∈ start, s.RoomFor (labelSets offset n)) :
    ∃ t, fillBytes buf n start s = .ok (⟨⟩, t) ∧ s.Filled t buf start n := by
  cases start with
  | some start =>
    obtain ⟨t, run, sound', le, painted⟩ := paintBytes_run sound (inRange rfl) (room start rfl)
    refine ⟨t, run, sound', le, painted.bytes, fun c => ?_⟩
    have old := le.grows.knows (sound.known c)
    rw [painted.exact.eq_iff_setOf_eq (sound'.known c) old, le.grows.setOf (sound.known c)]
  | none =>
    have clear : Flow (memSpan buf n) Set.univ ∅ True (fun _ => ∅) (clearBytes buf n) :=
      clearBytes_flow subset_rfl
    obtain ⟨dir, run, cleared, -⟩ := clearBytes_run s buf n
    obtain ⟨-, sound', -, le⟩ := clear.of_ok sound sound.within_univ run
    have empty : ∀ c ∈ memSpan buf n, (s.withTagDir dir).cell c = clearedVal := by
      rintro c ⟨i, hi, rfl⟩
      exact cleared i hi
    refine ⟨_, run, sound', le, fun i hi => ?_, fun c => ⟨fun same => ?_, fun same => ?_⟩⟩
    · exact (sound'.labelsOf_eq_empty _).mpr (cleared i hi)
    · rw [Shadow.labelsOf, same, le.grows.setOf (sound.known c)]
    · by_cases inside : c ∈ memSpan buf n
      · have none := (sound'.labelsOf_eq_empty c).mpr (empty c inside)
        rw [empty c inside, (sound.labelsOf_eq_empty c).mp (same.symm.trans none)]
      · exact le.frame c inside

/-- A label is a file offset in 32 bits. -/
theorem offsetLabel_toNat (start : UINT64) (i : ℕ) :
    (offsetLabel start i).toNat = (start.toNat + i) % 2 ^ 32 := by
  simp only [offsetLabel, byteAt, BitVec.toNat_setWidth, BitVec.toNat_add, BitVec.toNat_ofNat]
  omega

end LibdftDr
