import LibdftDr.Mnt.Consumer

/-!
# Candidate files

A module load tries its candidate files in order until one loads. The loader fills the image
as it reads, so that a file that ends early leaves its offsets behind; `loadFirst_offsets` is
what the image holds in the end, and `module_offsets_iff` says when that is what the first good
file holds.
-/
namespace LibdftDr
open Library

/-! ## What a file holds -/

/-- What a loop of the body appends does not depend on what is there. -/
theorem readTier_append (keep : Bool) (n : ℕ) (f : List UINT8) (mnt : List UINT64) :
    readTier keep n f mnt = ((readTier keep n f []).1, (readTier keep n f []).2.1,
      mnt ++ (readTier keep n f []).2.2) := by
  induction n generalizing f mnt with
  | zero => simp [readTier]
  | succ n ih =>
    cases hf : read64 f with
    | none => simp [readTier, hf]
    | some r =>
      obtain ⟨buf, f'⟩ := r
      simp only [readTier, hf]
      rw [ih f' (if keep then mnt ++ [buf] else mnt), ih f' (if keep then [] ++ [buf] else [])]
      cases keep <;> simp

theorem readBody_append (h : MntHeader) (policy : Policy) (f : List UINT8) (mnt : List UINT64) :
    readBody h policy f mnt =
      ((readBody h policy f []).1, mnt ++ (readBody h policy f []).2) := by
  unfold readBody
  rw [readTier_append true _ f mnt]
  rcases readTier true h.nSound.toNat f [] with ⟨_ | _, f, sound⟩
  · rfl
  · simp only
    rw [readTier_append _ _ f (mnt ++ sound), readTier_append _ _ f sound]
    rcases readTier (policy == .lean) h.nLeanExtra.toNat f [] with ⟨_ | _, f, lean⟩
    · simp
    · simp only
      rw [readTier_append _ _ f (mnt ++ sound ++ lean), readTier_append _ _ f (sound ++ lean)]
      rcases readTier (policy == .v2Perpc) h.nV2Extra.toNat f [] with ⟨_ | _, f, v2⟩ <;> simp

/-- Whether a file loads, and the offsets of the wanted tiers in it. -/
def readFile (policy : Policy) (f : List UINT8) : Bool × List UINT64 :=
  match readHeader f with
  | none => (false, [])
  | some (h, f) => if h.version ≠ 2 then (false, []) else readBody h policy f []

/-- The same of a path; a file that cannot be opened does not load and holds nothing. -/
def candidate (host : Host) (policy : Policy) (path : Text) : Bool × List UINT64 :=
  ((host.openFile path).map (readFile policy)).getD (false, [])

variable {host : Host} {policy : Policy} {path : Text} {paths : List Text} {im : ImageMnt}
  {x : UINT64}

theorem mem_sortOffsets {mnt : List UINT64} : x ∈ sortOffsets mnt ↔ x ∈ mnt :=
  List.mem_mergeSort

/-- The loader answers whether the file loads, and adds what the file holds in either case. -/
theorem loadMntBin_offsets (host : Host) (path : Text) (im : ImageMnt) (policy : Policy) :
    (loadMntBin host path im policy).1 = (candidate host policy path).1 ∧
      ∀ x, x ∈ (loadMntBin host path im policy).2.mntSorted ↔
        x ∈ im.mntSorted ∨ x ∈ (candidate host policy path).2 := by
  unfold loadMntBin candidate
  cases host.openFile path with
  | none => simp
  | some f =>
    simp only [Option.map_some, Option.getD_some, readFile]
    cases readHeader f with
    | none => simp
    | some r =>
      obtain ⟨h, body⟩ := r
      dsimp only
      split_ifs
      · simp
      · rw [readBody_append]
        rcases readBody h policy body [] with ⟨_ | _, new⟩
        · simp
        · simp [mem_sortOffsets]

/-- A file that does not load adds what was read of it, in the order of the file. -/
theorem loadMntBin_of_bad (im : ImageMnt) (bad : (candidate host policy path).1 = false) :
    ∃ im', loadMntBin host path im policy = (false, im') ∧
      im'.mntSorted = im.mntSorted ++ (candidate host policy path).2 := by
  unfold loadMntBin
  unfold candidate at bad ⊢
  cases hf : host.openFile path with
  | none => exact ⟨im, rfl, by simp⟩
  | some f =>
    simp only [hf, Option.map_some, Option.getD_some, readFile] at bad ⊢
    cases hh : readHeader f with
    | none => exact ⟨im, rfl, by simp⟩
    | some r =>
      obtain ⟨h, body⟩ := r
      simp only [hh] at bad ⊢
      split_ifs at bad ⊢
      · exact ⟨im, rfl, by simp⟩
      · rw [readBody_append, bad]
        exact ⟨_, rfl, rfl⟩

/-! ## The loop over the candidates -/

/-- The first candidate that loads. -/
def firstGood (host : Host) (policy : Policy) (paths : List Text) : Option Text :=
  paths.find? fun p => (candidate host policy p).1

/-- The offsets of the first candidate that loads; none when there is none. -/
def goodOffsets (host : Host) (policy : Policy) (paths : List Text) : List UINT64 :=
  ((firstGood host policy paths).map fun p => (candidate host policy p).2).getD []

/-- The candidates that are tried before one loads. -/
def failing (host : Host) (policy : Policy) (paths : List Text) : List Text :=
  paths.takeWhile fun p => !(candidate host policy p).1

/-- In the end the image holds the offsets of the candidate that has loaded, and also those of
all that were tried before. -/
theorem loadFirst_offsets : x ∈ (loadFirst host policy paths im).mntSorted ↔
    x ∈ im.mntSorted ∨ (∃ p ∈ failing host policy paths, x ∈ (candidate host policy p).2) ∨
      x ∈ goodOffsets host policy paths := by
  induction paths generalizing im with
  | nil => simp [loadFirst, failing, goodOffsets, firstGood]
  | cons path paths ih =>
    obtain ⟨loads, offsets⟩ := loadMntBin_offsets host path im policy
    unfold loadFirst
    rcases hl : loadMntBin host path im policy with ⟨_ | _, im'⟩ <;> rw [hl] at loads offsets
    · have bad : (candidate host policy path).1 = false := loads.symm
      rw [ih, offsets]
      simp only [failing, goodOffsets, firstGood, List.find?_cons, List.takeWhile_cons, bad,
        Bool.not_false, if_true, List.mem_cons, exists_eq_or_imp, or_assoc]
    · have good : (candidate host policy path).1 = true := loads.symm
      rw [offsets]
      simp [failing, goodOffsets, firstGood, good]

/-- What the candidates leave when none of them loads. -/
def leftBehind (host : Host) (policy : Policy) (paths : List Text) : List UINT64 :=
  paths.flatMap fun p => (candidate host policy p).2

/-- Without a candidate that loads, what they leave is not sorted. -/
theorem loadFirst_of_none (h : firstGood host policy paths = none) :
    (loadFirst host policy paths im).mntSorted = im.mntSorted ++ leftBehind host policy paths := by
  induction paths generalizing im with
  | nil => simp [loadFirst, leftBehind]
  | cons path paths ih =>
    obtain ⟨bad, rest⟩ : (candidate host policy path).1 = false ∧
        firstGood host policy paths = none := by
      simpa [firstGood] using h
    obtain ⟨im', load, offsets⟩ := loadMntBin_of_bad im bad
    rw [loadFirst, load]
    dsimp only
    rw [ih rest, offsets, leftBehind, leftBehind, List.flatMap_cons, List.append_assoc]

/-- Once a candidate has loaded, the offsets are sorted. -/
theorem loadFirst_sorted (h : firstGood host policy paths ≠ none) :
    (loadFirst host policy paths im).Sorted := by
  induction paths generalizing im with
  | nil => simp [firstGood] at h
  | cons path paths ih =>
    obtain ⟨loads, -⟩ := loadMntBin_offsets host path im policy
    unfold loadFirst
    rcases hl : loadMntBin host path im policy with ⟨_ | _, im'⟩ <;> rw [hl] at loads
    · have bad : (candidate host policy path).1 = false := loads.symm
      refine ih ?_
      simpa [firstGood, bad] using h
    · exact loadMntBin_sorted hl

/-! ## Module loads -/

/-- The offsets that the failing candidates hold are all in the one that loads. -/
def NoStrays (host : Host) (policy : Policy) (paths : List Text) : Prop :=
  ∀ p ∈ failing host policy paths, ∀ x ∈ (candidate host policy p).2,
    x ∈ goodOffsets host policy paths

/-- A lookup answers 1 for an address of the image only when a routine range contains it. -/
def ImageMnt.SkipsRangesOnly (im : ImageMnt) : Prop :=
  ∀ (s s' : MntState) (pc : ADDRINT) (b : Bool), s.CacheLive → s.Separate → s.policy ≠ .off →
    im ∈ s.images → im.contains pc = true → s.isMnt pc = .ok (b, s') → b = true →
    (s.rtnRangeContains pc).1 = true

/-- The image has the offsets of the first good candidate, for the vector and for the search in
it; without one it is skipped through ranges only. -/
structure ImageMnt.HasGood (im : ImageMnt) (host : Host) (policy : Policy) (paths : List Text) :
    Prop where
  offsets : ∀ x, x ∈ im.mntSorted ↔ x ∈ goodOffsets host policy paths
  lookups : ∀ x, im.hasOffset x = true ↔ x ∈ goodOffsets host policy paths
  none : firstGood host policy paths = none → im.SkipsRangesOnly

theorem goodOffsets_of_none (h : firstGood host policy paths = none) :
    goodOffsets host policy paths = [] := by
  simp [goodOffsets, h]

/-- An image without offsets is skipped through ranges only. -/
theorem ImageMnt.skipsRangesOnly_of_nil (h : im.mntSorted = []) : im.SkipsRangesOnly := by
  intro s s' pc b cache separate on mem inside run answer
  have none : im.hasOffset (pc - im.low) = false := by
    rw [Bool.eq_false_iff]
    intro found
    have := ImageMnt.mem_of_hasOffset found
    simp [h] at this
  rw [MntState.isMnt_answer cache separate on run, MntState.scanAnswer, separate.find mem inside,
    Option.any_some, none, Bool.false_or] at answer
  rw [MntState.rtnRangeContains_fst]
  exact answer

theorem loadFirst_hasGood_iff (fresh : im.mntSorted = []) :
    (loadFirst host policy paths im).HasGood host policy paths ↔ NoStrays host policy paths := by
  have offsets : ∀ x, x ∈ (loadFirst host policy paths im).mntSorted ↔
      (∃ p ∈ failing host policy paths, x ∈ (candidate host policy p).2) ∨
        x ∈ goodOffsets host policy paths := by
    intro x
    rw [loadFirst_offsets, fresh]
    simp
  constructor
  · intro good p hp x hx
    exact (good.offsets x).mp ((offsets x).mpr (.inl ⟨p, hp, hx⟩))
  · intro strays
    have exact_ : ∀ x, x ∈ (loadFirst host policy paths im).mntSorted ↔
        x ∈ goodOffsets host policy paths := by
      intro x
      rw [offsets]
      constructor
      · rintro (⟨p, hp, hx⟩ | hx)
        · exact strays p hp x hx
        · exact hx
      · exact .inr
    have empty : firstGood host policy paths = none →
        (loadFirst host policy paths im).mntSorted = [] := by
      intro h
      refine List.eq_nil_iff_forall_not_mem.mpr fun x hx => ?_
      rw [exact_, goodOffsets_of_none h] at hx
      simp at hx
    refine ⟨exact_, fun x => ?_, fun h => ImageMnt.skipsRangesOnly_of_nil (empty h)⟩
    rw [← exact_]
    by_cases h : firstGood host policy paths = none
    · refine ⟨ImageMnt.mem_of_hasOffset, fun hx => ?_⟩
      rw [empty h] at hx
      simp at hx
    · exact ImageMnt.hasOffset_iff (loadFirst_sorted h) x

/-- A module load gives the image the offsets of the first candidate that loads, and none without
one, if and only if the candidates that were cut off hold none but these. -/
theorem module_offsets_iff {host : Host} {info : ModuleData} {s : MntState}
    (on : s.policy ≠ .off) :
    (∃ im, (s.onModuleLoad host info).images = s.images ++ [im] ∧
        im.HasGood host s.policy (buildSearchPaths host (info.fullPath.getD []))) ↔
      NoStrays host s.policy (buildSearchPaths host (info.fullPath.getD [])) := by
  rw [MntState.onModuleLoad, if_neg on]
  simp only [List.append_cancel_left_eq, List.cons.injEq, and_true]
  constructor
  · rintro ⟨_, rfl, good⟩
    exact (loadFirst_hasGood_iff rfl).mp good
  · exact fun strays => ⟨_, rfl, (loadFirst_hasGood_iff rfl).mpr strays⟩

/-- A file with a header that announces `nSound` sound offsets. -/
def mntFile (nSound : UINT8) (body : List UINT8) : List UINT8 :=
  [0x4d, 0x4e, 0x54, 0x42] ++ [2, 0, 0, 0] ++ List.replicate 12 0 ++ [nSound, 0, 0, 0] ++
    List.replicate 12 0 ++ body

/-- Every candidate is this file. -/
def everywhere (f : List UINT8) : Host where
  openFile _ := some f
  realpath _ := none
  mntDir := none

/-- Two offsets are announced and one is there. -/
def cutOff : List UINT8 := mntFile 2 [0x10, 0, 0, 0, 0, 0, 0, 0]

def complete : List UINT8 := mntFile 1 [0x10, 0, 0, 0, 0, 0, 0, 0]

theorem candidate_cutOff (path : Text) :
    candidate (everywhere cutOff) .lean path = (false, [0x10]) := rfl

theorem candidate_complete (path : Text) :
    candidate (everywhere complete) .lean path = (true, [0x10]) := rfl

def someModule : ModuleData := ⟨0x1000, 0x2000, none⟩

/-- A complete file gives the image its offset. -/
theorem module_offsets_iff_complete : ∃ im,
    ((MntState.init .lean).onModuleLoad (everywhere complete) someModule).images = [] ++ [im] ∧
      im.HasGood (everywhere complete) .lean (buildSearchPaths (everywhere complete) []) := by
  refine (module_offsets_iff (s := MntState.init .lean) (by decide)).mpr ?_
  obtain ⟨path, paths, hp⟩ :
      ∃ path paths, buildSearchPaths (everywhere complete) [] = path :: paths :=
    ⟨_, _, rfl⟩
  have none : failing (everywhere complete) .lean (path :: paths) = [] := by
    simp [failing, candidate_complete]
  rintro p hfail
  change p ∈ failing (everywhere complete) .lean
    (buildSearchPaths (everywhere complete) []) at hfail
  rw [hp, none] at hfail
  cases hfail

/-- A file that is cut off leaves its offset in an image for which no candidate has loaded. -/
theorem module_offsets_strays :
    ¬ ∀ (host : Host) (info : ModuleData) (s : MntState), s.policy ≠ .off →
      ∃ im, (s.onModuleLoad host info).images = s.images ++ [im] ∧
        im.HasGood host s.policy (buildSearchPaths host (info.fullPath.getD [])) := by
  intro claim
  obtain ⟨im, images, good⟩ := claim (everywhere cutOff) someModule (.init .lean) (by decide)
  obtain ⟨path, paths, hp⟩ :
      ∃ path paths, buildSearchPaths (everywhere cutOff) [] = path :: paths :=
    ⟨_, _, rfl⟩
  have none : firstGood (everywhere cutOff) .lean (path :: paths) = none := by
    simp [firstGood, candidate_cutOff]
  have image :
      loadFirst (everywhere cutOff) .lean (buildSearchPaths (everywhere cutOff) []) _ = im :=
    List.singleton_inj.mp images
  have stray : (0x10 : UINT64) ∈ im.mntSorted := by
    rw [← image, hp, loadFirst_offsets]
    refine .inr (.inl ⟨path, ?_, ?_⟩)
    · simp [failing, candidate_cutOff]
    · simp [candidate_cutOff]
  have held := (good.offsets 0x10).mp stray
  change 0x10 ∈ goodOffsets (everywhere cutOff) .lean
    (buildSearchPaths (everywhere cutOff) []) at held
  rw [hp, goodOffsets_of_none none] at held
  simp at held

end LibdftDr
