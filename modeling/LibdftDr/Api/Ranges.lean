import LibdftDr.Core.Shifts
import LibdftDr.Core.Transfer
import LibdftDr.Machine.Labels
import LibdftDr.Sinks.Records

/-!
# Tags of ranges and of operands

The interface gives the tag of a whole range of memory, of what an argument points to and of all
operands of an instruction as one union, and it tests for taint byte by byte or operand by
operand. The unions are the same in whatever parts they are taken, and the tests agree with them,
as long as the table has ids for the sets.
-/
namespace LibdftDr.Api
open Library Library.Action

/-! ## Operands -/

/-- `sink_context_t::has_tainted_operand`. -/
def hasTaintedOperand (pl : SinkPayload) : Bool := pl.operandTags.any tagCount

/-- `sink_context_t::operand_union`. -/
def operandUnion (pl : SinkPayload) : Engine Tag :=
  each pl.operandTags (fun t acc => combine acc t) clearedVal

/-- What the tags of a list denote, together. -/
def labelsOfTags (tb : SetTable) (tags : List Tag) : Finset ℕ := tags.foldl (· ∪ tb.setOf ·) ∅

theorem mem_labelsOfTags {tb : SetTable} {tags : List Tag} {x : ℕ} :
    x ∈ labelsOfTags tb tags ↔ ∃ t ∈ tags, x ∈ tb.setOf t := by
  simp [labelsOfTags, mem_foldl_union]

/-- The order of the operands makes no difference. -/
theorem hasTaintedOperand_perm {pl pl' : SinkPayload}
    (h : pl.operandTags.Perm pl'.operandTags) : hasTaintedOperand pl = hasTaintedOperand pl' := by
  rw [hasTaintedOperand, hasTaintedOperand, Bool.eq_iff_iff, List.any_eq_true, List.any_eq_true]
  simp only [h.mem_iff]

theorem hasTaintedOperand_iff {tb : SetTable} (live : tb.Live) {pl : SinkPayload}
    (known : ∀ t ∈ pl.operandTags, tb.Knows t) :
    hasTaintedOperand pl = true ↔ labelsOfTags tb pl.operandTags ≠ ∅ := by
  rw [hasTaintedOperand, List.any_eq_true, ← Finset.nonempty_iff_ne_empty]
  constructor
  · rintro ⟨t, mem, tainted⟩
    have some := (live.tagCount_iff (known t mem)).mp tainted
    obtain ⟨x, hx⟩ := Finset.nonempty_iff_ne_empty.mpr some
    exact ⟨x, mem_labelsOfTags.mpr ⟨t, mem, hx⟩⟩
  · rintro ⟨x, hx⟩
    obtain ⟨t, mem, ht⟩ := mem_labelsOfTags.mp hx
    exact ⟨t, mem, (live.tagCount_iff (known t mem)).mpr (Finset.ne_empty_of_mem ht)⟩

/-! ## The unions as label sets -/

section Unions

variable {held : Set (Tag × Finset ℕ)} {m : Cell → Finset ℕ} {addr p : ADDRINT} {n k : UINT64}

theorem operandUnion_does {pl : SinkPayload} {f : Tag → Finset ℕ}
    (known : ∀ t ∈ pl.operandTags, (t, f t) ∈ held) :
    byLabels.Does held m (fun v => {(v, pl.operandTags.foldl (· ∪ f ·) ∅)}) m
      (operandUnion pl) := by
  refine Meaning.clearedVal_does (View.Does.each (.inr rfl) fun t mem held' sub b v hb => ?_)
  exact Meaning.combine_does hb (sub (.inl (known t mem)))

theorem getMemTagRange_does (range : InRange addr n.toNat) :
    byLabels.Does held m (fun v => {(v, allOf (fun i => .mem (byteAt addr i)) n.toNat m)}) m
      (getMemTagRange addr n) := by
  rw [← Finset.empty_union (allOf _ n.toNat m)]
  exact Meaning.clearedVal_does (unite_does (.inr rfl) fun i hi _ => Meaning.getb_does (range i hi))

/-- The tag of a range, made from those of its two parts. -/
def partsTag (addr : ADDRINT) (n k : UINT64) : Engine Tag := do
  let l ← getMemTagRange addr n
  let r ← getMemTagRange (addr + n) k
  combine l r

theorem byteAt_add (addr : ADDRINT) (n : UINT64) (i : ℕ) :
    byteAt (addr + n) i = byteAt addr (n.toNat + i) := by
  simp only [byteAt, BitVec.ofNat_add, BitVec.ofNat_toNat, BitVec.setWidth_eq]
  rw [BitVec.add_assoc]

/-- A range in user memory does not wrap around. -/
theorem toNat_add_of_inRange (range : InRange addr (n.toNat + k.toNat)) :
    (n + k).toNat = n.toNat + k.toNat := by
  rw [BitVec.toNat_add, Nat.mod_eq_of_lt]
  by_contra wraps
  -- such a range has the last byte of the address space
  have last := range (2 ^ 64 - 1 - addr.toNat) (by omega)
  rw [BitVec.le_def, byteAt, BitVec.toNat_add, BitVec.toNat_ofNat] at last
  have top : (lastAddress).toNat = 0x7fffffffffff := rfl
  have := addr.isLt
  omega

theorem allOf_add (c : ℕ → Cell) (i j : ℕ) :
    allOf c (i + j) m = allOf c i m ∪ allOf (fun l => c (i + l)) j m := by
  induction j with
  | zero => simp [allOf]
  | succ j ih => rw [← Nat.add_assoc, allOf_succ, ih, allOf_succ, Finset.union_assoc]

theorem partsTag_does (range : InRange addr (n.toNat + k.toNat)) :
    byLabels.Does held m
      (fun v => {(v, allOf (fun i => .mem (byteAt addr i)) (n.toNat + k.toNat) m)}) m
      (partsTag addr n k) := by
  have second : InRange (addr + n) k.toNat := by
    intro i hi
    rw [byteAt_add]
    exact range _ (by omega)
  rw [allOf_add]
  simp only [← byteAt_add]
  exact (getMemTagRange_does fun i hi => range i (by omega)).bind fun l =>
    (getMemTagRange_does second).bind fun r => Meaning.combine_does (.inl (.inr rfl)) (.inr rfl)

end Unions

/-! ## The tests -/

/-- The scan finds taint if there is some. -/
theorem anyTainted_iff {s : Shadow} {p : ADDRINT} {left i : ℕ}
    (range : ∀ k < left, byteAt p (i + k) ≤ lastAddress) :
    ∃ b, anyTainted p left i s = .ok (b, s) ∧
      (b = true ↔ ∃ k < left, tagCount (s.cell (.mem (byteAt p (i + k)))) = true) := by
  induction left generalizing i with
  | zero => exact ⟨false, rfl, by simp⟩
  | succ left ih =>
    have first : byteAt p i ≤ lastAddress := range 0 (by omega)
    rw [anyTainted, bind_of_ok (getb_of_le first s)]
    cases ht : tagCount (s.cell (.mem (byteAt p i))) with
    | true => exact ⟨true, rfl, iff_of_true rfl ⟨0, by omega, ht⟩⟩
    | false =>
      have shift : ∀ k, i + 1 + k = i + (k + 1) := fun k => by omega
      obtain ⟨b, run, tainted⟩ := ih fun k hk => shift k ▸ range (k + 1) (by omega)
      refine ⟨b, run, tainted.trans ?_⟩
      simp only [shift]
      constructor
      · rintro ⟨k, hk, h⟩
        exact ⟨k + 1, by omega, h⟩
      · rintro ⟨k, hk, h⟩
        cases k with
        | zero => exact absurd (ht.symm.trans h) (by decide)
        | succ k => exact ⟨k, by omega, h⟩

/-! ## The laws -/

/-- The two tags of a range, taken one after the other in either order. -/
def bothTags (f g : Engine Tag) : Engine (Tag × Tag) := do
  let l ← f
  let r ← g
  pure (l, r)

/-- Splitting a range makes no difference to its tag, which stands for the labels of all its
bytes, and the tests for taint agree with the unions. `room` tells when the ids are relied on. -/
structure RangeLaws (room : Shadow → Prop) (s : Shadow) : Prop where
  split : ∀ addr n k, InRange addr (n.toNat + k.toNat) →
    ∀ order ∈ [bothTags (getMemTagRange addr (n + k)) (partsTag addr n k),
        bothTags (partsTag addr n k) (getMemTagRange addr (n + k))],
      ∃ v t, order s = .ok (v, t) ∧ (room t → v.1 = v.2 ∧
        t.sets.setOf v.1 =
          allOf (fun i => .mem (byteAt addr i)) (n.toNat + k.toNat) s.labelsOf)
  pointed : ∀ p n, (p ≠ 0 → InRange p n.toNat) →
    ∃ b v t, argPointedIsTainted p n s = .ok (b, s) ∧ argPointedTag p n s = .ok (v, t) ∧
      (room t → (b = true ↔ tagCount v = true))
  operands : ∀ pl : SinkPayload, (∀ t ∈ pl.operandTags, s.sets.Knows t) →
    ∃ v t, operandUnion pl s = .ok (v, t) ∧
      (room t → t.sets.setOf v = labelsOfTags s.sets pl.operandTags ∧
        ∀ pl' : SinkPayload, pl'.operandTags.Perm pl.operandTags →
          (hasTaintedOperand pl' = true ↔ tagCount v = true))

section Laws

variable {s : Shadow} {w : Finset ℕ}

/-- What a union returns. -/
theorem union_run {f : Engine Tag} {held : Set (Tag × Finset ℕ)} (sound : s.Sound)
    (does : byLabels.Does held s.labelsOf (fun v => {(v, w)}) s.labelsOf f)
    (known : ∀ p ∈ held, byLabels.Denotes s.sets p.1 p.2) :
    ∃ v t, f s = .ok (v, t) ∧
      (t.InIds → t.sets.setOf v = w ∧ (tagCount v = true ↔ w ≠ ∅)) := by
  obtain ⟨v, t, run, ⟨⟨live, -⟩, -⟩, -, denotes⟩ := does s sound.shows_labelsOf known
  obtain ⟨knows, labels⟩ := denotes (v, w) rfl
  refine ⟨v, t, run, fun room => ⟨labels room, ?_⟩⟩
  rw [live.tagCount_iff knows, labels room]

/-- Two unions of the same labels have the same id. -/
theorem bothTags_run {f g : Engine Tag} (sound : s.Sound)
    (hf : ∀ held, byLabels.Does held s.labelsOf (fun v => {(v, w)}) s.labelsOf f)
    (hg : ∀ held, byLabels.Does held s.labelsOf (fun v => {(v, w)}) s.labelsOf g) :
    ∃ v t, bothTags f g s = .ok (v, t) ∧
      (t.InIds → v.1 = v.2 ∧ t.sets.setOf v.1 = w) := by
  have does : byLabels.Does ∅ s.labelsOf (fun v => {(v.1, w), (v.2, w)}) s.labelsOf
      (bothTags f g) := by
    refine (hf _).bind fun l => (hg _).bind fun r => View.Does.pure ?_
    rintro p (rfl | rfl)
    · exact .inl (.inr rfl)
    · exact .inr rfl
  obtain ⟨v, t, run, ⟨⟨-, exact'⟩, -⟩, -, denotes⟩ := does s sound.shows_labelsOf (by simp)
  obtain ⟨knows, labels⟩ := denotes (v.1, w) (.inl rfl)
  obtain ⟨knows', labels'⟩ := denotes (v.2, w) (.inr rfl)
  refine ⟨v, t, run, fun room => ⟨?_, labels room⟩⟩
  exact ((exact' room).eq_iff_setOf_eq knows knows').mpr ((labels room).trans (labels' room).symm)

theorem pointed_law (sound : s.Sound) {p : ADDRINT} {n : UINT64}
    (range : p ≠ 0 → InRange p n.toNat) :
    ∃ b v t, argPointedIsTainted p n s = .ok (b, s) ∧ argPointedTag p n s = .ok (v, t) ∧
      (t.InIds → (b = true ↔ tagCount v = true)) := by
  unfold argPointedIsTainted argPointedTag
  by_cases hn : n = 0
  · simp only [if_pos hn]
    exact ⟨false, clearedVal, s, rfl, rfl, fun _ => by decide⟩
  by_cases hp : p = 0
  · simp only [if_neg hn, if_pos hp]
    exact ⟨false, clearedVal, s, rfl, rfl, fun _ => by decide⟩
  simp only [if_neg hn, if_neg hp]
  have scans : ∀ k < n.toNat, byteAt p (0 + k) ≤ lastAddress :=
    fun k hk => (Nat.zero_add k).symm ▸ range hp k hk
  have does : byLabels.Does ∅ s.labelsOf _ s.labelsOf (getMemTagRange p n) :=
    getMemTagRange_does (range hp)
  obtain ⟨b, scan, tainted⟩ := anyTainted_iff (s := s) scans
  obtain ⟨v, t, run, union⟩ := union_run sound does (by simp)
  refine ⟨b, v, t, scan, run, fun room => ?_⟩
  rw [(union room).2, tainted, ← Finset.nonempty_iff_ne_empty, allOf, Finset.biUnion_nonempty]
  simp only [Finset.mem_range, Nat.zero_add, Finset.nonempty_iff_ne_empty,
    sound.live.tagCount_iff (sound.known _)]

/-- While the table has ids, the tag of a range is that of its parts and stands for the labels of
its bytes, and the tests for taint agree with the unions. -/
theorem range_laws (sound : s.Sound) : RangeLaws Shadow.InIds s where
  split addr n k range order mem := by
    have whole : ∀ held, byLabels.Does held s.labelsOf
        (fun v => {(v, allOf (fun i => .mem (byteAt addr i)) (n.toNat + k.toNat) s.labelsOf)})
        s.labelsOf (getMemTagRange addr (n + k)) := by
      intro held
      rw [← toNat_add_of_inRange range]
      exact getMemTagRange_does ((toNat_add_of_inRange range).symm ▸ range)
    simp only [List.mem_cons, List.not_mem_nil, or_false] at mem
    obtain rfl | rfl := mem
    · exact bothTags_run sound whole fun _ => partsTag_does range
    · exact bothTags_run sound (fun _ => partsTag_does range) whole
  pointed p n range := pointed_law sound range
  operands pl known := by
    have does : byLabels.Does {q | q.1 ∈ pl.operandTags ∧ q.2 = s.sets.setOf q.1} s.labelsOf
        (fun v => {(v, labelsOfTags s.sets pl.operandTags)}) s.labelsOf (operandUnion pl) :=
      operandUnion_does fun t mem => ⟨mem, rfl⟩
    obtain ⟨v, t, run, union⟩ := union_run sound does (by
      rintro q ⟨mem, same⟩
      exact ⟨known q.1 mem, fun _ => same.symm⟩)
    refine ⟨v, t, run, fun room => ⟨(union room).1, fun pl' perm => ?_⟩⟩
    rw [hasTaintedOperand_perm perm, (union room).2, hasTaintedOperand_iff sound.live known]

end Laws

/-- A range of two bytes, of which the first is tainted: the test finds it, and so does the
union. -/
theorem range_laws_one :
    ∃ v t, argPointedIsTainted 0x1000 2 (oneTainted 0x1000) = .ok (true, oneTainted 0x1000) ∧
      argPointedTag 0x1000 2 (oneTainted 0x1000) = .ok (v, t) ∧ tagCount v = true := by
  obtain ⟨b, v, t, test, union, agree⟩ := (range_laws (oneTainted_sound 0x1000)).pointed 0x1000 2
    fun _ => inRange_of_toNat_le (by decide)
  have found : argPointedIsTainted 0x1000 2 (oneTainted 0x1000) =
      .ok (true, oneTainted 0x1000) := rfl
  have length : (argPointedTag 0x1000 2 (oneTainted 0x1000)).toOption.map
      (fun r => r.2.sets.gSets.length) = some 2 := by decide
  rw [union] at length
  have two : t.sets.gSets.length = 2 := Option.some.inj length
  have room : t.InIds := by
    rw [Shadow.InIds, two]
    decide
  cases found.symm.trans test
  exact ⟨v, t, test, union, (agree room).mp rfl⟩

/-- When every id has been given out, the union of two tainted bytes gets the id of the empty
set, and the test finds them tainted. -/
theorem range_laws_fail :
    ¬ ∀ (es : List Event) (s : Shadow), Run Step Shadow.new es s → RangeLaws (fun _ => True) s := by
  intro claim
  obtain ⟨s, painted, h⟩ := painted_run (2 ^ 32 - 1) (by omega)
  obtain ⟨s', clear, h'⟩ := h.clear (by omega)
  obtain ⟨v5, tb, ne5, get5, two⟩ := h'.unite_two (by omega)
  have found : argPointedIsTainted 5 2 s' = .ok (true, s') := by
    have hit : tagCount v5 = true := bne_iff_ne.mpr fun e => ne5 (Tag.ext e)
    refine (bind_of_ok get5).trans ?_
    rw [if_pos hit]
    rfl
  obtain ⟨b, v, t, test, union, agree⟩ := (claim _ s' (painted.snoc clear)).pointed 5 2
    fun _ => inRange_of_toNat_le (by decide)
  cases found.symm.trans test
  cases (show argPointedTag 5 2 s' = _ from two).symm.trans union
  exact absurd ((agree trivial).mp rfl) (by decide)

end LibdftDr.Api
