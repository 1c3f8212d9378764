import LibdftDr.Library.Runs
import LibdftDr.Mnt.Consumer

/-!
# Routine ranges

`rtn_range_contains` sorts the registered ranges when they have changed and looks at one of
them, the last that starts at or before the address. Where ranges nest, the one that contains
the address may start earlier: `rtn_range_contains_iff` says exactly when the answer is that of
all the ranges.
-/
namespace LibdftDr
open Library

namespace RtnRange

def Covers (r : RtnRange) (pc : ADDRINT) : Prop := r.1 ≤ pc ∧ pc < r.2

/-- No range of the list that starts at or before `pc` starts after `r`. -/
def StartsLast (rs : List RtnRange) (pc : ADDRINT) (r : RtnRange) : Prop :=
  ∀ q ∈ rs, q.1 ≤ pc → q.1 ≤ r.1

end RtnRange

/-! ## The sorted ranges -/

theorem rangeLt_iff {a b : RtnRange} : rangeLt a b = true ↔
    a.1.toNat < b.1.toNat ∨ a.1.toNat = b.1.toNat ∧ a.2.toNat < b.2.toNat := by
  simp only [rangeLt, BitVec.lt_def, Bool.or_eq_true, Bool.and_eq_true, Bool.not_eq_true',
    decide_eq_true_eq, decide_eq_false_iff_not]
  omega

/-- A range does not come before one that is listed before it. -/
def RangesSorted (rs : List RtnRange) : Prop := rs.Pairwise fun a b => (!rangeLt b a) = true

theorem sortRanges_sorted (rs : List RtnRange) : RangesSorted (sortRanges rs) := by
  refine List.pairwise_mergeSort (fun a b c hab hbc => ?_) (fun a b => ?_) rs
  · simp only [Bool.not_eq_true', Bool.eq_false_iff, ne_eq, rangeLt_iff] at *
    omega
  · simp only [Bool.or_eq_true, Bool.not_eq_true', Bool.eq_false_iff, ne_eq, rangeLt_iff]
    omega

section Sorted

variable {rs : List RtnRange} {pc : ADDRINT} {i j : ℕ} {a b : RtnRange}

theorem RangesSorted.not_rangeLt (sorted : RangesSorted rs) (hij : i ≤ j) (hi : rs[i]? = some a)
    (hj : rs[j]? = some b) : ¬ rangeLt b a = true := by
  obtain ⟨hil, rfl⟩ := List.getElem?_eq_some_iff.mp hi
  obtain ⟨hjl, rfl⟩ := List.getElem?_eq_some_iff.mp hj
  obtain hlt | rfl := hij.lt_or_eq
  · simpa using List.pairwise_iff_getElem.mp sorted i j hil hjl hlt
  · rw [rangeLt_iff]
    omega

/-- The test of the search, at an address after which there is another. -/
theorem rangeLt_probe_iff (room : pc.toNat + 1 < 2 ^ 64) :
    rangeLt a (pc + 1, 0) = true ↔ a.1 ≤ pc := by
  rw [rangeLt_iff, BitVec.le_def, BitVec.toNat_add]
  change a.1.toNat < (pc.toNat + 1) % 2 ^ 64 ∨ _ = (pc.toNat + 1) % 2 ^ 64 ∧ _ < 0 ↔ _
  omega

theorem probe_initial (sorted : RangesSorted rs) (room : pc.toNat + 1 < 2 ^ 64) (i j : ℕ)
    (hij : i ≤ j) (hj : (rs[j]?).any (fun r => rangeLt r (pc + 1, 0)) = true) :
    (rs[i]?).any (fun r => rangeLt r (pc + 1, 0)) = true := by
  obtain ⟨b, hb, low⟩ := (Option.any_eq_true _ _).mp hj
  have inside := (List.getElem?_eq_some_iff.mp hb).1
  have ha := List.getElem?_eq_getElem (hij.trans_lt inside)
  have ordered := sorted.not_rangeLt hij ha hb
  rw [rangeLt_probe_iff room, BitVec.le_def] at low
  rw [rangeLt_iff] at ordered
  rw [ha, Option.any_some, rangeLt_probe_iff room, BitVec.le_def]
  omega

/-- The address after one that a range covers does not wrap. -/
theorem probe_room {r : RtnRange} (h : pc < r.2) : pc.toNat + 1 < 2 ^ 64 := by
  have := BitVec.lt_def.mp h
  have := r.2.isLt
  omega

/-- A range that passes the test is listed before the one that the search stops at. -/
theorem lt_lowerBound_of_le (sorted : RangesSorted rs) (room : pc.toNat + 1 < 2 ^ 64)
    {q : RtnRange} {j : ℕ} (hj : rs[j]? = some q) (low : q.1 ≤ pc) :
    j < lowerBound (fun r => rangeLt r (pc + 1, 0)) rs := by
  rw [lt_lowerBound_iff (probe_initial sorted room), hj, Option.any_some]
  exact (rangeLt_probe_iff room).mpr low

/-- Of the sorted ranges the lookup sees only those that start last. -/
theorem coveredBy_iff (sorted : RangesSorted rs) : MntState.coveredBy pc rs = true ↔
    ∃ r ∈ rs, RtnRange.Covers r pc ∧ RtnRange.StartsLast rs pc r := by
  constructor
  · intro h
    simp only [MntState.coveredBy] at h
    split_ifs at h with first
    obtain ⟨r, hr, covers⟩ := (Option.any_eq_true _ _).mp h
    simp only [Bool.and_eq_true, decide_eq_true_eq] at covers
    refine ⟨r, List.mem_of_getElem? hr, covers, fun q hq low => ?_⟩
    obtain ⟨j, hj⟩ := List.mem_iff_getElem?.mp hq
    have pass := lt_lowerBound_of_le sorted (probe_room covers.2) hj low
    have ordered := sorted.not_rangeLt (by omega) hj hr
    rw [rangeLt_iff] at ordered
    rw [BitVec.le_def]
    omega
  · rintro ⟨r, hr, ⟨low, high⟩, last⟩
    have room := probe_room high
    obtain ⟨j, hj⟩ := List.mem_iff_getElem?.mp hr
    have pass := lt_lowerBound_of_le sorted room hj low
    have seen := (lt_lowerBound_iff (probe_initial sorted room)).mp
      (Nat.sub_one_lt_of_lt pass)
    obtain ⟨q, hq, before⟩ := (Option.any_eq_true _ _).mp seen
    have ordered := sorted.not_rangeLt (Nat.le_sub_one_of_lt pass) hj hq
    have start := last q (List.mem_of_getElem? hq) ((rangeLt_probe_iff room).mp before)
    rw [rangeLt_probe_iff room] at before
    rw [rangeLt_iff] at ordered
    rw [BitVec.le_def] at start
    rw [BitVec.lt_def] at high
    simp only [MntState.coveredBy, if_neg (Nat.ne_of_gt (Nat.zero_lt_of_lt pass)), hq,
      Option.any_some, Bool.and_eq_true, decide_eq_true_eq]
    refine ⟨before, ?_⟩
    rw [BitVec.lt_def]
    omega

end Sorted

/-! ## Runs of the consumer -/

/-- The calls into the consumer that keep or read its state. -/
inductive ConsumerEvent where
  | load (host : Host) (info : ModuleData)
  | unload (info : ModuleData)
  | addRtnRange (low high : ADDRINT)
  | rtnRangeContains (pc : ADDRINT)
  | isMnt (pc : ADDRINT)

inductive ConsumerStep (s : MntState) : ConsumerEvent → MntState → Prop
  | load {host info} : ConsumerStep s (.load host info) (s.onModuleLoad host info)
  | unload {info} : ConsumerStep s (.unload info) (s.onModuleUnload info)
  | addRtnRange {low high} : ConsumerStep s (.addRtnRange low high) (s.addRtnRange low high)
  | rtnRangeContains {pc} : ConsumerStep s (.rtnRangeContains pc) (s.rtnRangeContains pc).2
  | isMnt {pc b t} (answer : MntState.isMnt pc s = .ok (b, t)) : ConsumerStep s (.isMnt pc) t

/-- The ranges that have been added; an empty one is not. -/
def addedRanges (events : List ConsumerEvent) : List RtnRange :=
  events.filterMap fun
    | .addRtnRange low high => if low < high then some (low, high) else none
    | _ => none

namespace MntState

variable {s t : MntState} {pc : ADDRINT}

/-- The ranges are sorted unless they are marked for sorting. -/
def Ordered (s : MntState) : Prop := s.rangesDirty = false → RangesSorted s.ranges

theorem Ordered.congr (h : s.Ordered) (ranges : t.ranges = s.ranges)
    (dirty : t.rangesDirty = s.rangesDirty) : t.Ordered := by
  rw [Ordered, ranges, dirty]
  exact h

theorem Ordered.settle_sorted (h : s.Ordered) : RangesSorted s.settle.ranges := by
  rw [settle_ranges]
  split_ifs with dirty
  · exact sortRanges_sorted s.ranges
  · exact h (by simpa using dirty)

theorem Ordered.rtnRangeContains (h : s.Ordered) (pc : ADDRINT) :
    (s.rtnRangeContains pc).2.Ordered := by
  unfold MntState.rtnRangeContains
  split_ifs
  · exact h
  · exact fun _ => h.settle_sorted

theorem Ordered.rangeAnswer (h : s.Ordered) (pc : ADDRINT) : (s.rangeAnswer pc).2.Ordered := by
  have after := h.rtnRangeContains pc
  unfold MntState.rangeAnswer
  split <;> rename_i answer <;> rw [answer] at after
  · exact after.congr rfl rfl
  · exact after

theorem Ordered.imageAnswer (h : s.Ordered) (im : ImageMnt) (pc : ADDRINT) :
    (imageAnswer im pc s).2.Ordered := by
  unfold MntState.imageAnswer
  split_ifs
  · exact h.congr rfl rfl
  · exact h.rangeAnswer pc

theorem Ordered.scan (h : s.Ordered) (pc : ADDRINT) : (s.scan pc).2.Ordered := by
  obtain ⟨i, im, -, -, eq⟩ | ⟨-, eq⟩ := scan_cases pc s <;> rw [eq]
  · have found : Ordered { s with lastImg := some ⟨s.generation, i⟩ } := h.congr rfl rfl
    exact found.imageAnswer im pc
  · have missed : Ordered { s with totalMissesNoImg := s.totalMissesNoImg + 1 } := h.congr rfl rfl
    exact missed.rangeAnswer pc

theorem Ordered.of_answer {x : Bool × MntState} {b : Bool} (h : x.2.Ordered)
    (answer : (.ok x : Except Fault (Bool × MntState)) = .ok (b, t)) : t.Ordered := by
  cases answer
  exact h

theorem Ordered.isMnt (h : s.Ordered) {b : Bool} (answer : isMnt pc s = .ok (b, t)) :
    t.Ordered := by
  have counted : Ordered { s with totalLookups := s.totalLookups + 1 } := h.congr rfl rfl
  unfold MntState.isMnt at answer
  dsimp only at answer
  split_ifs at answer
  · exact (h.rangeAnswer pc).of_answer answer
  · split at answer
    · exact (counted.scan pc).of_answer answer
    · split at answer
      · cases answer
      · split_ifs at answer
        · exact (counted.imageAnswer _ pc).of_answer answer
        · exact (counted.scan pc).of_answer answer

end MntState

/-- What holds after the events: the state has the ranges that were added, sorted unless they are
marked, and its cache can be read. -/
structure Consumed (events : List ConsumerEvent) (s : MntState) : Prop where
  ranges : s.ranges.Perm (addedRanges events)
  ordered : s.Ordered
  cache : s.CacheLive

section Runs

variable {events : List ConsumerEvent} {s t : MntState} {e : ConsumerEvent} {policy : Policy}
  {pc : ADDRINT}

theorem addedRanges_concat (events : List ConsumerEvent) (e : ConsumerEvent) :
    addedRanges (events ++ [e]) = addedRanges events ++ addedRanges [e] :=
  List.filterMap_append

/-- A step that adds no range. -/
theorem Consumed.of_perm (h : Consumed events s) (none : addedRanges [e] = [])
    (ranges : t.ranges.Perm s.ranges) (ordered : t.Ordered) (cache : t.CacheLive) :
    Consumed (events ++ [e]) t := by
  refine ⟨?_, ordered, cache⟩
  rw [addedRanges_concat, none, List.append_nil]
  exact ranges.trans h.ranges

theorem Consumed.addRtnRange (h : Consumed events s) (low high : ADDRINT) :
    Consumed (events ++ [.addRtnRange low high]) (s.addRtnRange low high) := by
  by_cases empty : high ≤ low
  · have none : addedRanges [.addRtnRange low high] = [] := by
      simp [addedRanges, BitVec.not_lt.mpr empty]
    rw [MntState.addRtnRange, if_pos empty]
    exact h.of_perm none (.refl _) h.ordered h.cache
  · have one : addedRanges [.addRtnRange low high] = [(low, high)] := by
      simp [addedRanges, BitVec.not_le.mp empty]
    rw [MntState.addRtnRange, if_neg empty]
    refine ⟨?_, nofun, h.cache⟩
    rw [addedRanges_concat, one]
    exact h.ranges.append_right _

theorem Consumed.step (h : Consumed events s) (step : ConsumerStep s e t) :
    Consumed (events ++ [e]) t := by
  cases step with
  | load =>
    refine h.of_perm rfl ?_ ?_ ?_ <;> unfold MntState.onModuleLoad <;> split_ifs
    · exact .refl _
    · exact .refl _
    · exact h.ordered
    · exact h.ordered.congr rfl rfl
    · exact h.cache
    · rintro ref ⟨⟩
  | unload =>
    refine h.of_perm rfl ?_ ?_ ?_ <;> unfold MntState.onModuleUnload <;> split_ifs
    · exact .refl _
    · exact .refl _
    · exact h.ordered.congr rfl rfl
    · exact h.ordered
    · rintro ref ⟨⟩
    · exact h.cache
  | addRtnRange => exact h.addRtnRange _ _
  | @rtnRangeContains pc =>
    obtain ⟨frame, same⟩ := MntState.rtnRangeContains_frame pc s
    exact h.of_perm rfl frame.ranges (h.ordered.rtnRangeContains pc) (h.cache.of_frame frame same)
  | @isMnt pc b _ answer =>
    obtain ⟨b', t', answer', frame, cache⟩ := MntState.isMnt_total h.cache pc
    obtain ⟨rfl, rfl⟩ := Prod.mk.inj (Except.ok.inj (answer.symm.trans answer'))
    exact h.of_perm rfl frame.ranges (h.ordered.isMnt answer) cache

theorem consumed_of_run (run : Run ConsumerStep (MntState.init policy) events s) :
    Consumed events s := by
  induction run with
  | nil => exact ⟨.refl _, fun _ => .nil, by rintro ref ⟨⟩⟩
  | snoc _ step ih => exact ih.step step

/-- The lookup answers whether a range that starts last contains the address. -/
theorem rtnRangeContains_of_run (run : Run ConsumerStep (MntState.init policy) events s) :
    (s.rtnRangeContains pc).1 = true ↔
      ∃ r ∈ addedRanges events, r.Covers pc ∧ r.StartsLast (addedRanges events) pc := by
  have h := consumed_of_run run
  have mem : ∀ r, r ∈ s.settle.ranges ↔ r ∈ addedRanges events := fun r =>
    (s.settle_frame.1.ranges.trans h.ranges).mem_iff
  rw [MntState.rtnRangeContains_fst, coveredBy_iff h.ordered.settle_sorted]
  simp only [RtnRange.StartsLast, mem]

/-- A range that contains the address starts last, if there is any range that contains it. -/
def Exposed (rs : List RtnRange) (pc : ADDRINT) : Prop :=
  (∃ r ∈ rs, r.Covers pc) → ∃ r ∈ rs, r.Covers pc ∧ r.StartsLast rs pc

/-- After any run the lookup answers whether some added range contains the address, if and only
if one of those that do starts last among the ranges that start at or before it. -/
theorem rtn_range_contains_iff (run : Run ConsumerStep (MntState.init policy) events s) :
    ((s.rtnRangeContains pc).1 = true ↔ ∃ r ∈ addedRanges events, r.Covers pc) ↔
      Exposed (addedRanges events) pc := by
  rw [rtnRangeContains_of_run run, Exposed]
  constructor
  · exact fun same => same.mpr
  · intro exposed
    refine ⟨?_, exposed⟩
    rintro ⟨r, hr, covers, -⟩
    exact ⟨r, hr, covers⟩

end Runs

/-- A routine and one nested in it. -/
def nestedRoutines : List ConsumerEvent := [.addRtnRange 0x1000 0x1100, .addRtnRange 0x1040 0x1050]

theorem nestedRoutines_run : Run ConsumerStep (MntState.init .lean) nestedRoutines
    (((MntState.init .lean).addRtnRange 0x1000 0x1100).addRtnRange 0x1040 0x1050) :=
  .snoc (.snoc .nil .addRtnRange) .addRtnRange

/-- The outer routine contains an address after the inner one but does not start last. -/
theorem nestedRoutines_not_exposed : ¬ Exposed (addedRanges nestedRoutines) 0x1060 := by
  intro exposed
  have outer : ((0x1000, 0x1100) : RtnRange) ∈ addedRanges nestedRoutines := .head _
  have inner : ((0x1040, 0x1050) : RtnRange) ∈ addedRanges nestedRoutines := .tail _ (.head _)
  obtain ⟨r, hr, covers, last⟩ := exposed ⟨_, outer, by decide, by decide⟩
  obtain rfl | rfl : r = (0x1000, 0x1100) ∨ r = (0x1040, 0x1050) := by
    simpa [addedRanges, nestedRoutines] using hr
  · exact absurd (last _ inner (by decide)) (by decide)
  · exact absurd covers.2 (by decide)

theorem nestedRoutines_exposed : Exposed (addedRanges nestedRoutines) 0x1044 := by
  rintro -
  refine ⟨(0x1040, 0x1050), .tail _ (.head _), ⟨by decide, by decide⟩, fun q hq _ => ?_⟩
  obtain rfl | rfl : q = (0x1000, 0x1100) ∨ q = (0x1040, 0x1050) := by
    simpa [addedRanges, nestedRoutines] using hq
  · decide
  · decide

/-- In the inner routine the answer is right, after it it is not. -/
theorem rtn_range_contains_iff_nested :
    ((((MntState.init .lean).addRtnRange 0x1000 0x1100).addRtnRange 0x1040 0x1050).rtnRangeContains
        0x1044).1 = true ∧
    ((((MntState.init .lean).addRtnRange 0x1000 0x1100).addRtnRange 0x1040 0x1050).rtnRangeContains
        0x1060).1 = false := by
  constructor
  · have right := (rtn_range_contains_iff nestedRoutines_run).mpr nestedRoutines_exposed
    exact right.mpr ⟨(0x1040, 0x1050), .tail _ (.head _), by decide, by decide⟩
  · have wrong := mt (rtn_range_contains_iff nestedRoutines_run).mp nestedRoutines_not_exposed
    refine Bool.eq_false_iff.mpr fun found => wrong ⟨fun _ => ?_, fun _ => found⟩
    exact ⟨(0x1000, 0x1100), .head _, by decide, by decide⟩

/-- An address of the outer routine after the inner one is not found. -/
theorem rtn_range_misses_outer :
    ¬ ∀ (policy : Policy) (events : List ConsumerEvent) (s : MntState) (pc : ADDRINT),
      Run ConsumerStep (MntState.init policy) events s →
      ((s.rtnRangeContains pc).1 = true ↔ ∃ r ∈ addedRanges events, r.Covers pc) := by
  intro claim
  refine nestedRoutines_not_exposed fun covered => ?_
  exact (rtnRangeContains_of_run nestedRoutines_run).mp
    ((claim _ _ _ 0x1060 nestedRoutines_run).mpr covered)

end LibdftDr
