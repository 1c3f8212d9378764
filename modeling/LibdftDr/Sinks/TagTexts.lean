import LibdftDr.TagMap.Reached
import LibdftDr.Sinks.Records

/-!
# The views of one set

A client sees a tag by walking its labels, as a text, as a number of labels and as an answer
whether there are any; the filter of the writers counts the commas of the text. All of these are
views of the one set that the tag stands for, and the text can be read back.
-/
namespace LibdftDr
open Library

/-- `enumerate`: the walk, of which the client sees what its visitor has done. -/
def Tag.enumerate {υ : Type} (t : Tag) (tb : SetTable) (fn : UINT32 → υ → Bool × υ) (user : υ) :
    υ := (tagWalk t tb fn user).2

/-- `to_string`. -/
def Tag.toString (t : Tag) (tb : SetTable) : Text := tagSprint t tb

/-- The set that a printed text shows: the numbers between its braces. -/
def readSet (text : Text) : Finset ℕ := (readDecimals ',' (text.drop 1).dropLast).toFinset

theorem readSet_print (s : Ewah) : readSet s.print = s.toFinset := by
  have inner : (s.print.drop 1).dropLast = separated ',' (s.members.map decimal) := by
    simp [Ewah.print]
  rw [readSet, inner, readDecimals_separated (by decide)]
  rfl

/-- The text of a tag determines its set. -/
theorem readSet_tagSprint {tb : SetTable} {t : Tag} (live : tb.Live) (known : tb.Knows t) :
    readSet (tagSprint t tb) = tb.setOf t := by
  obtain ⟨s, hs⟩ := SetTable.knows_iff.mp known
  rw [live.tagSprint_eq hs, SetTable.setOf_eq hs, readSet_print]

/-! ## Walks -/

section Walk

variable {υ : Type} {visit : UINT32 → υ → Bool × υ} {labels : List UINT32} {user : υ}

/-- What a visitor has done once it has seen the labels. -/
def visited (visit : UINT32 → υ → Bool × υ) (labels : List UINT32) (user : υ) : υ :=
  labels.foldl (fun user label => (visit label user).2) user

theorem tagWalk_go_all (goesOn : ∀ k (h : k < labels.length),
    (visit labels[k] (visited visit (labels.take k) user)).1 = true) :
    tagWalk.go visit (labels.map BitVec.toNat) user = (true, visited visit labels user) := by
  induction labels generalizing user with
  | nil => rfl
  | cons label labels ih =>
    have first : visit label user = (true, (visit label user).2) :=
      Prod.ext (goesOn 0 (by simp)) rfl
    have rest : tagWalk.go visit (labels.map BitVec.toNat) (visit label user).2 =
        (true, visited visit labels (visit label user).2) :=
      ih fun k h => goesOn (k + 1) (by simpa using h)
    rw [List.map_cons, tagWalk.go, BitVec.ofNat_toNat, BitVec.setWidth_eq, first]
    exact rest

theorem tagWalk_go_stop {k : ℕ} (h : k < labels.length)
    (goesOn : ∀ j (hj : j < k), (visit labels[j] (visited visit (labels.take j) user)).1 = true)
    (stops : (visit labels[k] (visited visit (labels.take k) user)).1 = false) :
    tagWalk.go visit (labels.map BitVec.toNat) user =
      (false, visited visit (labels.take (k + 1)) user) := by
  induction labels generalizing user k with
  | nil => simp at h
  | cons label labels ih =>
    rw [List.map_cons, tagWalk.go, BitVec.ofNat_toNat, BitVec.setWidth_eq]
    cases k with
    | zero =>
      have last : visit label user = (false, (visit label user).2) := Prod.ext stops rfl
      rw [last]
      rfl
    | succ k =>
      have first : visit label user = (true, (visit label user).2) :=
        Prod.ext (goesOn 0 (by simp)) rfl
      have rest : tagWalk.go visit (labels.map BitVec.toNat) (visit label user).2 =
          (false, visited visit (labels.take (k + 1)) (visit label user).2) :=
        ih (by simpa using h) (fun j hj => goesOn (j + 1) (by omega)) stops
      rw [first]
      exact rest

end Walk

/-- The labels of a tag as the walk hands them out. -/
structure Lists (tb : SetTable) (t : Tag) (labels : List UINT32) : Prop where
  ascending : (labels.map BitVec.toNat).Pairwise (· < ·)
  mem : ∀ n, n ∈ labels.map BitVec.toNat ↔ n ∈ tb.setOf t
  walk : ∀ {υ : Type} (visit : UINT32 → υ → Bool × υ) (user : υ),
    tagWalk t tb visit user = tagWalk.go visit (labels.map BitVec.toNat) user
  text : t.toString tb = '{' :: separated ',' (labels.map fun label => decimal label.toNat) ++ ['}']

section Reached

variable {tb : SetTable} {t : Tag}

/-- A handle on tables that making and combining tags led to has its labels in 32 bits. -/
theorem SetTable.Reached.lists (reached : tb.Reached) (known : tb.Knows t) :
    ∃ labels, Lists tb t labels := by
  obtain ⟨live, rooted⟩ := reached.rooted
  obtain ⟨s, hs⟩ := SetTable.knows_iff.mp known
  have small : ∀ n ∈ s.members, n % 2 ^ 32 = n := fun n hn =>
    Nat.mod_eq_of_lt (rooted _ s hs n hn).1
  have back : (s.members.map (BitVec.ofNat 32)).map BitVec.toNat = s.members := by
    rw [List.map_map]
    exact (List.map_congr_left fun n hn => small n hn).trans (List.map_id _)
  refine ⟨s.members.map (BitVec.ofNat 32), ?_, fun n => ?_, fun visit user => ?_, ?_⟩
  · rw [back]
    exact s.ascending
  · rw [back, SetTable.setOf_eq hs, Ascending.mem_toFinset]
  · rw [back, tagWalk]
    split_ifs with zero
    · rw [zero] at hs
      obtain rfl := Option.some.inj (live.zero.symm.trans hs)
      rfl
    · rw [hs]
  · have texts := congrArg (List.map decimal) back
    rw [List.map_map] at texts
    rw [Tag.toString, live.tagSprint_eq hs, Ewah.print, ← texts]
    rfl

/-- The 32-bit count of labels does not wrap. -/
theorem SetTable.Reached.numberOfOnes_eq (reached : tb.Reached) (known : tb.Knows t) :
    (t.numberOfOnes tb).toNat = (tb.setOf t).card := by
  obtain ⟨live, rooted⟩ := reached.rooted
  obtain ⟨s, hs⟩ := SetTable.knows_iff.mp known
  have few := rooted.card_le hs
  have id := t.id.isLt
  rw [live.numberOfOnes_eq known, SetTable.setOf_eq hs, BitVec.toNat_ofNat]
  exact Nat.mod_eq_of_lt (by omega)

end Reached

/-- The views of a tag agree. A walk sees the labels of its set in ascending order, all of them or
up to the first that the visitor rejects, for every visitor and so for one that records what it
sees. The text lists them in that order and reads back as the set; the count, the test and the
filter's tokens are the size of the set. -/
theorem tag_views_agree {tb : SetTable} {t : Tag} (reached : tb.Reached) (known : tb.Knows t) :
    (∃ labels : List UINT32, (labels.map BitVec.toNat).Pairwise (· < ·) ∧
      (∀ n, n ∈ labels.map BitVec.toNat ↔ n ∈ tb.setOf t) ∧
      (∀ {υ : Type} (visit : UINT32 → υ → Bool × υ) (user : υ),
        (∀ k (h : k < labels.length),
          (visit labels[k] (visited visit (labels.take k) user)).1 = true) →
        tagWalk t tb visit user = (true, visited visit labels user) ∧
          t.enumerate tb visit user = visited visit labels user) ∧
      (∀ {υ : Type} (visit : UINT32 → υ → Bool × υ) (user : υ) (k : ℕ) (h : k < labels.length),
        (∀ j (hj : j < k), (visit labels[j] (visited visit (labels.take j) user)).1 = true) →
        (visit labels[k] (visited visit (labels.take k) user)).1 = false →
        tagWalk t tb visit user = (false, visited visit (labels.take (k + 1)) user) ∧
          t.enumerate tb visit user = visited visit (labels.take (k + 1)) user) ∧
      t.toString tb =
        '{' :: separated ',' (labels.map fun label => decimal label.toNat) ++ ['}']) ∧
      readSet (t.toString tb) = tb.setOf t ∧
      (∀ u, tb.Knows u → t.toString tb = u.toString tb → tb.setOf t = tb.setOf u) ∧
      (t.numberOfOnes tb).toNat = (tb.setOf t).card ∧
      (tagCount t = true ↔ tb.setOf t ≠ ∅) ∧
      commaTokens (t.toString tb) = max 1 ((tb.setOf t).card : ℤ) := by
  have live := reached.rooted.1
  have reads {u : Tag} (hu : tb.Knows u) : readSet (u.toString tb) = tb.setOf u :=
    readSet_tagSprint live hu
  obtain ⟨labels, lists⟩ := reached.lists known
  refine ⟨⟨labels, lists.ascending, lists.mem, fun visit user goesOn => ?_,
    fun visit user k h goesOn stops => ?_, lists.text⟩, reads known, fun u hu same => ?_,
    reached.numberOfOnes_eq known, live.tagCount_iff known, commaTokens_tagSprint live known⟩
  · have whole := (lists.walk visit user).trans (tagWalk_go_all goesOn)
    exact ⟨whole, congrArg Prod.snd whole⟩
  · have stopped := (lists.walk visit user).trans (tagWalk_go_stop h goesOn stops)
    exact ⟨stopped, congrArg Prod.snd stopped⟩
  · rw [← reads known, ← reads hu, same]

/-- The tables after `make_tag(42)` and `make_tag(7)`. -/
def twoLabels : SetTable := (Tag.set 7 (Tag.set 42 tagmapAlloc).2).2

theorem twoLabels_exact : twoLabels.Exact := by
  obtain ⟨one, -⟩ := SetTable.tagSet_exact SetTable.tagmapAlloc_exact 42 (by decide)
  exact (SetTable.tagSet_exact one 7 (by decide)).1

/-- The combination of the two reads back as the set of both, and a walk that stops at its first
label has seen only that. -/
theorem tag_views_agree_combined : ∃ t tb, tagCombine ⟨1⟩ ⟨2⟩ twoLabels = .ok (t, tb) ∧
    readSet (t.toString tb) = {7, 42} ∧ (t.numberOfOnes tb).toNat = 2 ∧
      commaTokens (t.toString tb) = 2 ∧ ∃ label : UINT32, label.toNat ∈ tb.setOf t ∧
        t.enumerate tb (fun label seen => (false, seen ++ [label])) [] = [label] := by
  have reached : twoLabels.Reached := (SetTable.Reached.alloc.set 42).set 7
  have length : twoLabels.gSets.length = 3 := rfl
  have known₁ : twoLabels.Knows ⟨1⟩ := by rw [SetTable.Knows, length]; decide
  have known₂ : twoLabels.Knows ⟨2⟩ := by rw [SetTable.Knows, length]; decide
  obtain ⟨t, tb, run, -, known⟩ := SetTable.tagCombine_live twoLabels_exact.live known₁ known₂
  have room : tb.gSets.length ≤ idSpace := by
    obtain ⟨stored, few⟩ := SetTable.tagCombine_stored twoLabels_exact known₁ known₂ run
    rw [few, stored]
    refine (Finset.card_insert_le _ _).trans ?_
    rw [twoLabels_exact.card_stored, length]
    decide
  have both : tb.setOf t = {7, 42} := by
    obtain ⟨-, -, union⟩ := SetTable.tagCombine_exact twoLabels_exact known₁ known₂ run room
    exact union.trans (by decide)
  obtain ⟨⟨labels, -, mem, -, stops, -⟩, reads, -, count, -, tokens⟩ :=
    tag_views_agree (reached.combine run) known
  rw [both] at reads count tokens
  have some : 0 < labels.length := by
    have seven : 7 ∈ labels.map BitVec.toNat := (mem 7).mpr (by simp [both])
    simpa using List.length_pos_of_mem seven
  have first : labels[0].toNat ∈ labels.map BitVec.toNat :=
    List.mem_map_of_mem (List.getElem_mem some)
  refine ⟨t, tb, run, reads, count, tokens, labels[0], (mem _).mp first, ?_⟩
  rw [(stops _ [] 0 some (by simp) rfl).2]
  simp [visited, List.take_one, List.head?_eq_getElem?, some]

end LibdftDr
