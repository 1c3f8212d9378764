import LibdftDr.Mnt.Image

/-!
# The MNT consumer

The state behind `is_mnt`: the loaded images, a one-entry cache that points into them, and
the routine ranges registered at run time. The cache is a pointer into a vector, so it
names the state of the vector it was taken from; reading through a stale one is a fault.
-/
namespace LibdftDr
open Library

/-- A pointer into `s_images`: the vector as of some change to it, and an index. -/
structure ImageRef where
  generation : ℕ
  index : ℕ
  deriving DecidableEq

abbrev RtnRange := ADDRINT × ADDRINT

structure MntState where
  policy : Policy
  images : List ImageMnt
  /-- How often `push_back` or `erase` has invalidated pointers into `images`. -/
  generation : ℕ
  lastImg : Option ImageRef
  ranges : List RtnRange
  rangesDirty : Bool
  totalLookups : UINT64
  totalHits : UINT64
  totalMissesNoImg : UINT64
  totalRtnHits : UINT64

/-- The fields of `module_data_t` that are read. -/
structure ModuleData where
  start : ADDRINT
  /-- `end`, exclusive. -/
  stop : ADDRINT
  fullPath : Option Text
  deriving DecidableEq

/-- `std::pair`'s `operator<`. -/
def rangeLt (a b : RtnRange) : Bool :=
  decide (a.1 < b.1) || (!decide (b.1 < a.1) && decide (a.2 < b.2))

/-- `std::sort` on ranges. -/
def sortRanges (ranges : List RtnRange) : List RtnRange :=
  ranges.mergeSort fun a b => !rangeLt b a

namespace MntState

def init (policy : Policy) : MntState where
  policy := policy
  images := []
  generation := 0
  lastImg := none
  ranges := []
  rangesDirty := false
  totalLookups := 0
  totalHits := 0
  totalMissesNoImg := 0
  totalRtnHits := 0

def onModuleLoad (host : Host) (info : ModuleData) (s : MntState) : MntState :=
  if s.policy = .off then s
  else
    let path := info.fullPath.getD []
    let im : ImageMnt :=
      { name := basenameOf path, low := info.start, high := info.stop - 1, fileImageBase := 0,
        mntSorted := [] }
    { s with
      images := s.images ++ [loadFirst host s.policy (buildSearchPaths host path) im]
      generation := s.generation + 1
      lastImg := none }

/-- Erases the first image that starts where the module does, if there is one. -/
def onModuleUnload (info : ModuleData) (s : MntState) : MntState :=
  if s.images.any fun im => im.low == info.start then
    { s with
      images := s.images.eraseP fun im => im.low == info.start
      generation := s.generation + 1
      lastImg := none }
  else s

def addRtnRange (low high : ADDRINT) (s : MntState) : MntState :=
  if high ≤ low then s else { s with ranges := s.ranges ++ [(low, high)], rangesDirty := true }

/-- Sort the ranges if they have changed since they were last sorted. -/
def settle (s : MntState) : MntState :=
  if s.rangesDirty then { s with ranges := sortRanges s.ranges, rangesDirty := false } else s

/-- Whether the last range that starts at or before `pc` contains it. -/
def coveredBy (pc : ADDRINT) (ranges : List RtnRange) : Bool :=
  let it := lowerBound (fun r => rangeLt r (pc + 1, 0)) ranges
  if it = 0 then false
  else (ranges[it - 1]?).any fun r => decide (r.1 ≤ pc) && decide (pc < r.2)

def rtnRangeContains (pc : ADDRINT) (s : MntState) : Bool × MntState :=
  if s.ranges = [] then (false, s) else (coveredBy pc s.settle.ranges, s.settle)

/-- The answer outside every image, or in one that does not hold the offset. -/
def rangeAnswer (pc : ADDRINT) (s : MntState) : Bool × MntState :=
  match rtnRangeContains pc s with
  | (true, s) => (true, { s with totalRtnHits := s.totalRtnHits + 1 })
  | (false, s) => (false, s)

/-- The answer inside an image. -/
def imageAnswer (im : ImageMnt) (pc : ADDRINT) (s : MntState) : Bool × MntState :=
  if im.hasOffset (pc - im.low) then (true, { s with totalHits := s.totalHits + 1 })
  else rangeAnswer pc s

/-- The loop over the images; the first hit is remembered. -/
def scan (pc : ADDRINT) (s : MntState) : Bool × MntState :=
  match s.images.findIdx? fun im => im.contains pc with
  | some i =>
    match s.images[i]? with
    | some im => imageAnswer im pc { s with lastImg := some ⟨s.generation, i⟩ }
    | none => rangeAnswer pc s
  | none => rangeAnswer pc { s with totalMissesNoImg := s.totalMissesNoImg + 1 }

/-- Reading through a pointer into `s_images`. -/
def deref (s : MntState) (ref : ImageRef) : Except Fault ImageMnt :=
  if ref.generation = s.generation then
    match s.images[ref.index]? with
    | some im => .ok im
    | none => .error .outOfBounds
  else .error .dangling

def isMnt (pc : ADDRINT) (s : MntState) : Except Fault (Bool × MntState) :=
  if s.policy = .off then .ok (rangeAnswer pc s)
  else
    let s := { s with totalLookups := s.totalLookups + 1 }
    match s.lastImg with
    | none => .ok (scan pc s)
    | some ref =>
      match s.deref ref with
      | .error e => .error e
      | .ok im => if im.contains pc then .ok (imageAnswer im pc s) else .ok (scan pc s)

/-! ## What a lookup reads and changes -/

/-- The parts of the state a lookup may change: the cache, the order of the ranges and the
statistics. -/
structure LookupFrame (s s' : MntState) : Prop where
  policy : s'.policy = s.policy
  images : s'.images = s.images
  generation : s'.generation = s.generation
  ranges : s'.ranges.Perm s.ranges

variable {s s' : MntState} {pc : ADDRINT}

theorem LookupFrame.trans {a b c : MntState} (h : LookupFrame a b) (g : LookupFrame b c) :
    LookupFrame a c :=
  ⟨g.policy.trans h.policy, g.images.trans h.images, g.generation.trans h.generation,
    g.ranges.trans h.ranges⟩

theorem LookupFrame.refl (s : MntState) : LookupFrame s s := ⟨rfl, rfl, rfl, .refl _⟩

theorem settle_ranges (s : MntState) :
    s.settle.ranges = if s.rangesDirty then sortRanges s.ranges else s.ranges := by
  unfold settle
  split_ifs <;> rfl

theorem settle_frame (s : MntState) : LookupFrame s s.settle ∧ s.settle.lastImg = s.lastImg := by
  unfold settle
  split_ifs
  · exact ⟨⟨rfl, rfl, rfl, List.mergeSort_perm _ _⟩, rfl⟩
  · exact ⟨LookupFrame.refl s, rfl⟩

theorem rtnRangeContains_fst (pc : ADDRINT) (s : MntState) :
    (rtnRangeContains pc s).1 = coveredBy pc s.settle.ranges := by
  unfold rtnRangeContains
  split_ifs with hempty
  · have none : s.settle.ranges = [] := List.Perm.eq_nil (hempty ▸ s.settle_frame.1.ranges)
    simp [none, coveredBy]
  · rfl

theorem rtnRangeContains_frame (pc : ADDRINT) (s : MntState) :
    LookupFrame s (rtnRangeContains pc s).2 ∧ (rtnRangeContains pc s).2.lastImg = s.lastImg := by
  unfold rtnRangeContains
  split_ifs
  · exact ⟨LookupFrame.refl s, rfl⟩
  · exact settle_frame s

/-- An address that is reported lies in one of the ranges, sorted or not. -/
theorem exists_of_coveredBy {ranges : List RtnRange} (h : coveredBy pc ranges = true) :
    ∃ r ∈ ranges, r.1 ≤ pc ∧ pc < r.2 := by
  simp only [coveredBy] at h
  split_ifs at h
  obtain ⟨r, hr, hin⟩ := (Option.any_eq_true _ _).mp h
  simp only [Bool.and_eq_true, decide_eq_true_eq] at hin
  exact ⟨r, List.mem_of_getElem? hr, hin⟩

theorem rangeAnswer_fst (pc : ADDRINT) (s : MntState) :
    (rangeAnswer pc s).1 = (rtnRangeContains pc s).1 := by
  unfold rangeAnswer
  split <;> rename_i h <;> rw [h]

theorem rangeAnswer_frame (pc : ADDRINT) (s : MntState) :
    LookupFrame s (rangeAnswer pc s).2 ∧ (rangeAnswer pc s).2.lastImg = s.lastImg := by
  obtain ⟨frame, cache⟩ := rtnRangeContains_frame pc s
  unfold rangeAnswer
  split <;> rename_i h <;> rw [h] at frame cache
  · exact ⟨⟨frame.policy, frame.images, frame.generation, frame.ranges⟩, cache⟩
  · exact ⟨frame, cache⟩

theorem imageAnswer_fst (im : ImageMnt) (pc : ADDRINT) (s : MntState) :
    (imageAnswer im pc s).1 = (im.hasOffset (pc - im.low) || (rtnRangeContains pc s).1) := by
  unfold imageAnswer
  split_ifs with h
  · simp [h]
  · simp [h, rangeAnswer_fst]

theorem imageAnswer_frame (im : ImageMnt) (pc : ADDRINT) (s : MntState) :
    LookupFrame s (imageAnswer im pc s).2 ∧ (imageAnswer im pc s).2.lastImg = s.lastImg := by
  unfold imageAnswer
  split_ifs
  · exact ⟨⟨rfl, rfl, rfl, .refl _⟩, rfl⟩
  · exact rangeAnswer_frame pc s

/-- The cache points at an element of `s_images`. -/
def CacheLive (s : MntState) : Prop := ∀ ref, s.lastImg = some ref → ∃ im, s.deref ref = .ok im

theorem deref_eq_ok {ref : ImageRef} {im : ImageMnt} :
    s.deref ref = .ok im ↔ ref.generation = s.generation ∧ s.images[ref.index]? = some im := by
  unfold deref
  split_ifs with h
  · cases s.images[ref.index]? <;> simp [h]
  · simp [h]

theorem CacheLive.of_frame (h : s.CacheLive) (frame : LookupFrame s s')
    (same : s'.lastImg = s.lastImg) : s'.CacheLive := by
  intro ref href
  obtain ⟨im, him⟩ := h ref (same ▸ href)
  rw [deref_eq_ok] at him
  exact ⟨im, deref_eq_ok.mpr ⟨him.1.trans frame.generation.symm, frame.images ▸ him.2⟩⟩

/-- What the loop over the images answers, whatever the cache holds. -/
def scanAnswer (pc : ADDRINT) (s : MntState) : Bool :=
  (s.images.find? fun im => im.contains pc).any (fun im => im.hasOffset (pc - im.low)) ||
    coveredBy pc s.settle.ranges

theorem scan_cases (pc : ADDRINT) (s : MntState) :
    (∃ i im, s.images[i]? = some im ∧ (s.images.find? fun im => im.contains pc) = some im ∧
      scan pc s = imageAnswer im pc { s with lastImg := some ⟨s.generation, i⟩ }) ∨
    ((s.images.find? fun im => im.contains pc) = none ∧
      scan pc s = rangeAnswer pc { s with totalMissesNoImg := s.totalMissesNoImg + 1 }) := by
  cases h : s.images.findIdx? fun im => im.contains pc with
  | none =>
    rw [List.findIdx?_eq_none_iff] at h
    exact .inr ⟨List.find?_eq_none.mpr fun im him => by simp [h im him], by
      simp [scan, List.findIdx?_eq_none_iff.mpr h]⟩
  | some i =>
    obtain ⟨hi, hin, hbefore⟩ := List.findIdx?_eq_some_iff_getElem.mp h
    have him := List.getElem?_eq_getElem hi
    refine .inl ⟨i, s.images[i], him, ?_, ?_⟩
    · refine List.find?_eq_some_iff_getElem.mpr ⟨hin, i, hi, rfl, fun j hj => ?_⟩
      simpa using hbefore j hj
    · simp only [scan, h, him]

theorem scan_fst (pc : ADDRINT) (s : MntState) : (scan pc s).1 = scanAnswer pc s := by
  obtain ⟨i, im, -, found, heq⟩ | ⟨missed, heq⟩ := scan_cases pc s <;> rw [heq]
  · simp only [imageAnswer_fst, rtnRangeContains_fst, scanAnswer, found, settle_ranges,
      Option.any_some]
  · simp only [rangeAnswer_fst, rtnRangeContains_fst, scanAnswer, missed, settle_ranges,
      Option.any_none, Bool.false_or]

theorem scan_frame (pc : ADDRINT) (s : MntState) (h : s.CacheLive) :
    LookupFrame s (scan pc s).2 ∧ (scan pc s).2.CacheLive := by
  obtain ⟨i, im, him, -, heq⟩ | ⟨-, heq⟩ := scan_cases pc s <;> rw [heq]
  · obtain ⟨frame, same⟩ := imageAnswer_frame im pc { s with lastImg := some ⟨s.generation, i⟩ }
    refine ⟨⟨frame.policy, frame.images, frame.generation, frame.ranges⟩, ?_⟩
    -- the cache now points at the image that was found
    have live : CacheLive { s with lastImg := some ⟨s.generation, i⟩ } := by
      rintro ref ⟨⟩
      exact ⟨im, deref_eq_ok.mpr ⟨rfl, him⟩⟩
    exact live.of_frame frame same
  · obtain ⟨frame, same⟩ :=
      rangeAnswer_frame pc { s with totalMissesNoImg := s.totalMissesNoImg + 1 }
    have frame' : LookupFrame s _ :=
      ⟨frame.policy, frame.images, frame.generation, frame.ranges⟩
    exact ⟨frame', h.of_frame frame' same⟩

/-- With a live cache a lookup returns, keeps the images and the cache stays live. -/
theorem isMnt_total (h : s.CacheLive) (pc : ADDRINT) :
    ∃ b s', isMnt pc s = .ok (b, s') ∧ LookupFrame s s' ∧ s'.CacheLive := by
  unfold isMnt
  split_ifs
  · obtain ⟨frame, same⟩ := rangeAnswer_frame pc s
    exact ⟨_, _, rfl, frame, h.of_frame frame same⟩
  · have counted : CacheLive { s with totalLookups := s.totalLookups + 1 } := h
    have scanned := scan_frame pc _ counted
    have back : ∀ t, LookupFrame { s with totalLookups := s.totalLookups + 1 } t →
        LookupFrame s t :=
      fun t f => ⟨f.policy, f.images, f.generation, f.ranges⟩
    dsimp only
    split
    · exact ⟨_, _, rfl, back _ scanned.1, scanned.2⟩
    · rename_i ref href
      obtain ⟨im, him⟩ := counted ref href
      rw [him]
      dsimp only
      split_ifs
      · obtain ⟨frame, same⟩ :=
          imageAnswer_frame im pc { s with totalLookups := s.totalLookups + 1 }
        exact ⟨_, _, rfl, back _ frame, counted.of_frame frame same⟩
      · exact ⟨_, _, rfl, back _ scanned.1, scanned.2⟩

/-- No address lies in two images. -/
def Separate (s : MntState) : Prop :=
  ∀ (pc : ADDRINT) (i j : ℕ) (im jm : ImageMnt), s.images[i]? = some im → s.images[j]? = some jm →
    im.contains pc = true → jm.contains pc = true → i = j

theorem Separate.find (h : s.Separate) {im : ImageMnt} (him : im ∈ s.images)
    (hin : im.contains pc = true) : (s.images.find? fun im => im.contains pc) = some im := by
  obtain ⟨i, hi⟩ := List.mem_iff_getElem?.mp him
  obtain ⟨jm, hjm⟩ := Option.isSome_iff_exists.mp
    (List.find?_isSome (p := fun im => im.contains pc) |>.mpr ⟨im, him, hin⟩)
  obtain ⟨j, hj⟩ := List.mem_iff_getElem?.mp (List.mem_of_find?_eq_some hjm)
  obtain rfl := h pc i j im jm hi hj hin (by simpa using List.find?_some hjm)
  rw [hjm, ← hj, hi]

/-- The cached path and the loop agree. -/
theorem isMnt_answer (cache : s.CacheLive) (separate : s.Separate) (on : s.policy ≠ .off) {b : Bool}
    (h : isMnt pc s = .ok (b, s')) : b = scanAnswer pc s := by
  simp only [isMnt, on, if_false] at h
  have scanned : (scan pc { s with totalLookups := s.totalLookups + 1 }).1 = scanAnswer pc s := by
    rw [scan_fst]
    simp only [scanAnswer, settle_ranges]
  split at h
  · rw [show b = _ from (congrArg Prod.fst (Except.ok.inj h)).symm, scanned]
  · rename_i ref href
    obtain ⟨im, him⟩ := cache ref href
    rw [show deref { s with totalLookups := s.totalLookups + 1 } ref = .ok im from him] at h
    dsimp only at h
    split_ifs at h with hin
    · have mem := List.mem_of_getElem? (deref_eq_ok.mp him).2
      rw [show b = _ from (congrArg Prod.fst (Except.ok.inj h)).symm, imageAnswer_fst,
        rtnRangeContains_fst, scanAnswer, separate.find mem hin]
      simp only [settle_ranges, Option.any_some]
    · rw [show b = _ from (congrArg Prod.fst (Except.ok.inj h)).symm, scanned]

end MntState

end LibdftDr
