import LibdftDr.Compat
import LibdftDr.Library.BinarySearch

/-!
# Images and their `.mnt.bin` files

The static analyser writes one `.mnt.bin` file for an image: a magic, a header with three
counts, and three arrays of 64-bit offsets. The policy chooses which arrays are kept. A
failed read leaves in the image what was kept before it.
-/
namespace LibdftDr
open Library

inductive Policy where
  | off
  | lean
  | sound
  | v2Perpc
  deriving DecidableEq, Repr

/-- The value of `VUZZER_MNT_POLICY`; `none` when it is unset. -/
def parsePolicyEnv (p : Option Text) : Policy :=
  match p with
  | none => .lean
  | some p =>
    if p = [] then .lean
    else if p = "lean".toList then .lean
    else if p = "sound".toList then .sound
    else if p = "v2_perpc".toList then .v2Perpc
    else if p = "off".toList then .off
    else .lean

structure ImageMnt where
  name : Text
  low : ADDRINT
  /-- Inclusive. -/
  high : ADDRINT
  fileImageBase : UINT64
  mntSorted : List UINT64

/-- What a module load asks of the machine it runs on. -/
structure Host where
  /-- The bytes of a file that `dr_open_file` can open. -/
  openFile : Text → Option (List UINT8)
  realpath : Text → Option Text
  /-- `VUZZER_MNT_DIR`. -/
  mntDir : Option Text

/-! ## Paths -/

/-- The text before the last slash; empty when there is none. -/
def dirAside (path : Text) : Text := (path.reverse.dropWhile (· ≠ '/')).tail.reverse

/-- The candidate paths for `<basename>.mnt.bin`, for the basename as loaded and, when it
differs, as resolved. -/
def buildSearchPaths (host : Host) (imgPath : Text) : List Text :=
  let bases := basenameOf imgPath ::
    match host.realpath imgPath with
    | none => []
    | some r => if basenameOf r ≠ basenameOf imgPath then [basenameOf r] else []
  bases.flatMap fun b =>
    let file := '/' :: b ++ ".mnt.bin".toList
    (match host.mntDir with
      | none => []
      | some dir => if dir ≠ [] then [dir ++ file] else []) ++
    (if dirAside imgPath ≠ [] then [dirAside imgPath ++ file] else []) ++
    ["bin/_test".toList ++ file]

/-! ## Files -/

/-- Read exactly `n` bytes; a short read is a failure. -/
def readExact (n : ℕ) (f : List UINT8) : Option (List UINT8 × List UINT8) :=
  if n ≤ f.length then some (f.take n, f.drop n) else none

/-- A number in the byte order of the machine that reads it. -/
def littleEndian (bytes : List UINT8) : ℕ := bytes.foldr (fun b rest => b.toNat + 256 * rest) 0

def read32 (f : List UINT8) : Option (UINT32 × List UINT8) :=
  (readExact 4 f).map fun (buf, f) => (BitVec.ofNat 32 (littleEndian buf), f)

def read64 (f : List UINT8) : Option (UINT64 × List UINT8) :=
  (readExact 8 f).map fun (buf, f) => (BitVec.ofNat 64 (littleEndian buf), f)

structure MntHeader where
  version : UINT32
  defaultPolicy : UINT32
  imageBase : UINT64
  nSound : UINT32
  nLeanExtra : UINT32
  nV2Extra : UINT32
  reserved : UINT32

/-- `MNTB` and the header; what is left of the file is the body. -/
def readHeader (f : List UINT8) : Option (MntHeader × List UINT8) := do
  let (magic, f) ← readExact 4 f
  guard (magic = "MNTB".toList.map fun c => BitVec.ofNat 8 c.toNat)
  let (version, f) ← read32 f
  let (defaultPolicy, f) ← read32 f
  let (imageBase, f) ← read64 f
  let (nSound, f) ← read32 f
  let (nLeanExtra, f) ← read32 f
  let (nV2Extra, f) ← read32 f
  let (reserved, f) ← read32 f
  some (⟨version, defaultPolicy, imageBase, nSound, nLeanExtra, nV2Extra, reserved⟩, f)

/-- One loop of the body: read `n` offsets and push them when the tier is wanted. The flag
tells whether all of them were there. -/
def readTier (keep : Bool) : ℕ → List UINT8 → List UINT64 → Bool × List UINT8 × List UINT64
  | 0, f, mnt => (true, f, mnt)
  | n + 1, f, mnt =>
    match read64 f with
    | none => (false, f, mnt)
    | some (buf, f) => readTier keep n f (if keep then mnt ++ [buf] else mnt)

def readBody (h : MntHeader) (policy : Policy) (f : List UINT8) (mnt : List UINT64) :
    Bool × List UINT64 :=
  match readTier true h.nSound.toNat f mnt with
  | (false, _, mnt) => (false, mnt)
  | (true, f, mnt) =>
    match readTier (policy == .lean) h.nLeanExtra.toNat f mnt with
    | (false, _, mnt) => (false, mnt)
    | (true, f, mnt) =>
      match readTier (policy == .v2Perpc) h.nV2Extra.toNat f mnt with
      | (false, _, mnt) => (false, mnt)
      | (true, _, mnt) => (true, mnt)

/-- `std::sort` on offsets. -/
def sortOffsets (mnt : List UINT64) : List UINT64 :=
  mnt.mergeSort fun a b => decide (a.toNat ≤ b.toNat)

/-- The image is changed in place, also when the file turns out to be bad. -/
def loadMntBin (host : Host) (path : Text) (im : ImageMnt) (policy : Policy) : Bool × ImageMnt :=
  match host.openFile path with
  | none => (false, im)
  | some f =>
    match readHeader f with
    | none => (false, im)
    | some (h, f) =>
      if h.version ≠ 2 then (false, im)
      else
        match readBody h policy f im.mntSorted with
        | (false, mnt) => (false, { im with fileImageBase := h.imageBase, mntSorted := mnt })
        | (true, mnt) =>
          (true, { im with fileImageBase := h.imageBase, mntSorted := sortOffsets mnt })

/-- The candidates in order, up to the first that loads. -/
def loadFirst (host : Host) (policy : Policy) : List Text → ImageMnt → ImageMnt
  | [], im => im
  | path :: paths, im =>
    match loadMntBin host path im policy with
    | (true, im) => im
    | (false, im) => loadFirst host policy paths im

/-! ## Lookups -/

namespace ImageMnt

/-- `pc >= im->low && pc <= im->high`. -/
def contains (im : ImageMnt) (pc : ADDRINT) : Bool := decide (im.low ≤ pc) && decide (pc ≤ im.high)

/-- `std::binary_search` in the offsets of the image. -/
def hasOffset (im : ImageMnt) (rel : UINT64) : Bool := binarySearch BitVec.toNat im.mntSorted rel

theorem mem_of_hasOffset {im : ImageMnt} {rel : UINT64} (h : im.hasOffset rel = true) :
    rel ∈ im.mntSorted := by
  obtain ⟨x, hx, hkey⟩ := exists_of_binarySearch h
  rwa [BitVec.eq_of_toNat_eq hkey] at hx

def Sorted (im : ImageMnt) : Prop := im.mntSorted.Pairwise fun x y => x.toNat ≤ y.toNat

/-- In a sorted image the search decides membership. -/
theorem hasOffset_iff {im : ImageMnt} (sorted : im.Sorted) (rel : UINT64) :
    im.hasOffset rel = true ↔ rel ∈ im.mntSorted := by
  refine ⟨mem_of_hasOffset, fun h => (binarySearch_iff sorted).mpr ⟨rel, h, rfl⟩⟩

end ImageMnt

theorem pairwise_sortOffsets (mnt : List UINT64) :
    (sortOffsets mnt).Pairwise fun x y => x.toNat ≤ y.toNat := by
  have sorted : (sortOffsets mnt).Pairwise fun x y => decide (x.toNat ≤ y.toNat) = true := by
    refine List.pairwise_mergeSort ?_ ?_ mnt
    · intro a b c hab hbc
      simp only [decide_eq_true_eq] at hab hbc ⊢
      exact hab.trans hbc
    · intro a b
      simp only [Bool.or_eq_true, decide_eq_true_eq]
      exact Nat.le_total _ _
  exact sorted.imp fun h => of_decide_eq_true h

/-- Loading only fills in what the file holds: name and extent stay. -/
theorem loadMntBin_frame (host : Host) (path : Text) (im : ImageMnt) (policy : Policy) :
    (loadMntBin host path im policy).2.name = im.name ∧
      (loadMntBin host path im policy).2.low = im.low ∧
      (loadMntBin host path im policy).2.high = im.high := by
  unfold loadMntBin
  split
  · exact ⟨rfl, rfl, rfl⟩
  · split
    · exact ⟨rfl, rfl, rfl⟩
    · split_ifs
      · exact ⟨rfl, rfl, rfl⟩
      · split <;> exact ⟨rfl, rfl, rfl⟩

/-- A file that loads leaves the offsets sorted. -/
theorem loadMntBin_sorted {host : Host} {path : Text} {im im' : ImageMnt} {policy : Policy}
    (h : loadMntBin host path im policy = (true, im')) : im'.Sorted := by
  unfold loadMntBin at h
  cases hf : host.openFile path with
  | none => simp [hf] at h
  | some f =>
    cases hh : readHeader f with
    | none => simp [hf, hh] at h
    | some r =>
      simp only [hf, hh] at h
      split_ifs at h
      · simp at h
      · split at h
        · simp at h
        · obtain ⟨-, rfl⟩ := Prod.mk.inj h
          exact pairwise_sortOffsets _

theorem loadFirst_frame (host : Host) (policy : Policy) (paths : List Text) (im : ImageMnt) :
    (loadFirst host policy paths im).name = im.name ∧
      (loadFirst host policy paths im).low = im.low ∧
      (loadFirst host policy paths im).high = im.high := by
  induction paths generalizing im with
  | nil => exact ⟨rfl, rfl, rfl⟩
  | cons path paths ih =>
    have first := loadMntBin_frame host path im policy
    unfold loadFirst
    split <;> rename_i im' h <;> rw [h] at first
    · exact first
    · obtain ⟨name, low, high⟩ := ih im'
      exact ⟨name.trans first.1, low.trans first.2.1, high.trans first.2.2⟩

end LibdftDr
