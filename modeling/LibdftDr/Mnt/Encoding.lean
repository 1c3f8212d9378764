import LibdftDr.Library.Parsing
import LibdftDr.Mnt.Candidates

/-!
# Encoded `.mnt.bin` files

`MntFile.bytes` is the file that the analyser writes. `reads_fileParser` says that the loader's
reads take the header and the wanted tiers from it, and refuse what is cut off;
`mnt_bin_decoded` is what that means for a load.
-/
namespace LibdftDr
open Library

/-! ## Encoding -/

/-- The low `w` bytes of a number, the lowest first. -/
def toLittleEndian : ℕ → ℕ → List UINT8
  | 0, _ => []
  | w + 1, n => BitVec.ofNat 8 n :: toLittleEndian w (n / 256)

def bytes32 (v : UINT32) : List UINT8 := toLittleEndian 4 v.toNat

def bytes64 (v : UINT64) : List UINT8 := toLittleEndian 8 v.toNat

def mntMagic : List UINT8 := "MNTB".toList.map fun c => BitVec.ofNat 8 c.toNat

def MntHeader.bytes (h : MntHeader) : List UINT8 :=
  mntMagic ++ (bytes32 h.version ++ (bytes32 h.defaultPolicy ++ (bytes64 h.imageBase ++
    (bytes32 h.nSound ++ (bytes32 h.nLeanExtra ++ (bytes32 h.nV2Extra ++ bytes32 h.reserved))))))

/-- What the analyser has to say about an image; the header can count each list. -/
structure MntFile where
  defaultPolicy : UINT32
  imageBase : UINT64
  reserved : UINT32
  sound : List UINT64
  leanExtra : List UINT64
  v2Extra : List UINT64
  sound_lt : sound.length < 2 ^ 32
  leanExtra_lt : leanExtra.length < 2 ^ 32
  v2Extra_lt : v2Extra.length < 2 ^ 32

namespace MntFile

def header (m : MntFile) : MntHeader where
  version := 2
  defaultPolicy := m.defaultPolicy
  imageBase := m.imageBase
  nSound := BitVec.ofNat 32 m.sound.length
  nLeanExtra := BitVec.ofNat 32 m.leanExtra.length
  nV2Extra := BitVec.ofNat 32 m.v2Extra.length
  reserved := m.reserved

def bytes (m : MntFile) : List UINT8 :=
  m.header.bytes ++ (m.sound.flatMap bytes64 ++
    (m.leanExtra.flatMap bytes64 ++ m.v2Extra.flatMap bytes64))

/-- The offsets of the tiers that the policy wants. -/
def offsets (m : MntFile) (policy : Policy) : List UINT64 :=
  m.sound ++ (if policy == .lean then m.leanExtra else []) ++
    if policy == .v2Perpc then m.v2Extra else []

end MntFile

/-! ## Numbers -/

theorem length_toLittleEndian (w n : ℕ) : (toLittleEndian w n).length = w := by
  induction w generalizing n with
  | zero => rfl
  | succ w ih => rw [toLittleEndian, List.length_cons, ih]

theorem littleEndian_toLittleEndian (w n : ℕ) :
    littleEndian (toLittleEndian w n) = n % 256 ^ w := by
  induction w generalizing n with
  | zero => simp [toLittleEndian, littleEndian, Nat.mod_one]
  | succ w ih =>
    have rest : littleEndian (toLittleEndian (w + 1) n) =
        (BitVec.ofNat 8 n).toNat + 256 * littleEndian (toLittleEndian w (n / 256)) := rfl
    rw [rest, ih, BitVec.toNat_ofNat, pow_succ' 256, Nat.mod_mul]

theorem littleEndian_lt (bytes : List UINT8) : littleEndian bytes < 256 ^ bytes.length := by
  induction bytes with
  | nil => simp [littleEndian]
  | cons b bytes ih =>
    have rest : littleEndian (b :: bytes) = b.toNat + 256 * littleEndian bytes := rfl
    have small : b.toNat < 256 := b.isLt
    rw [rest, List.length_cons, pow_succ']
    omega

theorem reads_exact {n : ℕ} {bytes : List UINT8} (h : bytes.length = n) :
    Reads (readExact n) bytes bytes where
  whole rest := by
    rw [readExact, if_pos (by rw [List.length_append]; omega), List.take_left' h, List.drop_left' h]
  short part inside ne := by
    have shorter : part.length ≠ bytes.length := fun e => ne (inside.eq_of_length e)
    have := inside.length_le
    rw [readExact, if_neg (by omega)]

theorem readExact_eq_some {n : ℕ} {f bytes rest : List UINT8}
    (h : readExact n f = some (bytes, rest)) : bytes = f.take n ∧ rest = f.drop n := by
  unfold readExact at h
  split_ifs at h
  obtain ⟨rfl, rfl⟩ := Prod.mk.inj (Option.some.inj h)
  exact ⟨rfl, rfl⟩

theorem reads_number {w k : ℕ} (wide : 2 ^ k = 256 ^ w) (v : BitVec k) :
    Reads (fun f => (readExact w f).map fun x => (BitVec.ofNat k (littleEndian x.1), x.2))
      (toLittleEndian w v.toNat) v := by
  have number : BitVec.ofNat k (littleEndian (toLittleEndian w v.toNat)) = v := by
    rw [littleEndian_toLittleEndian, ← wide, Nat.mod_eq_of_lt v.isLt, BitVec.ofNat_toNat,
      BitVec.setWidth_eq]
  have reads := (reads_exact (length_toLittleEndian w v.toNat)).map fun buf =>
    BitVec.ofNat k (littleEndian buf)
  rwa [number] at reads

theorem reads_read32 (v : UINT32) : Reads read32 (bytes32 v) v := reads_number (w := 4) rfl v

theorem reads_read64 (v : UINT64) : Reads read64 (bytes64 v) v := reads_number (w := 8) rfl v

/-! ## The header -/

theorem readHeader_eq : readHeader =
    (Parser.andThen (readExact 4) fun magic => Parser.check (magic = mntMagic) <|
      Parser.andThen read32 fun version => Parser.andThen read32 fun defaultPolicy =>
      Parser.andThen read64 fun imageBase => Parser.andThen read32 fun nSound =>
      Parser.andThen read32 fun nLeanExtra => Parser.andThen read32 fun nV2Extra =>
      Parser.andThen read32 fun reserved => Parser.done
        ⟨version, defaultPolicy, imageBase, nSound, nLeanExtra, nV2Extra, reserved⟩) := rfl

theorem reads_readHeader (h : MntHeader) : Reads readHeader h.bytes h := by
  have reserved : Reads (Parser.andThen read32 fun reserved => Parser.done
      (⟨h.version, h.defaultPolicy, h.imageBase, h.nSound, h.nLeanExtra, h.nV2Extra,
        reserved⟩ : MntHeader)) (bytes32 h.reserved) h := by
    rw [← List.append_nil (bytes32 _)]
    exact (reads_read32 _).andThen (.done _)
  rw [readHeader_eq, MntHeader.bytes]
  refine .andThen (reads_exact rfl) (.check rfl ?_)
  refine .andThen (reads_read32 h.version) (.andThen (reads_read32 h.defaultPolicy) ?_)
  refine .andThen (reads_read64 h.imageBase) (.andThen (reads_read32 h.nSound) ?_)
  exact .andThen (reads_read32 h.nLeanExtra) (.andThen (reads_read32 h.nV2Extra) reserved)

/-- A header that is accepted begins with the magic, and the version comes next. -/
theorem start_of_readHeader {f body : List UINT8} {h : MntHeader}
    (read : readHeader f = some (h, body)) : f.take 4 = mntMagic ∧
      h.version = BitVec.ofNat 32 (littleEndian ((f.drop 4).take 4)) := by
  rw [readHeader_eq, Parser.andThen_eq_some] at read
  obtain ⟨magic, f₁, first, checked⟩ := read
  obtain ⟨rfl, fields⟩ := Parser.check_eq_some.mp checked
  obtain ⟨version, f₂, second, fields⟩ := Parser.andThen_eq_some.mp fields
  obtain ⟨_, _, -, fields⟩ := Parser.andThen_eq_some.mp fields
  obtain ⟨_, _, -, fields⟩ := Parser.andThen_eq_some.mp fields
  obtain ⟨_, _, -, fields⟩ := Parser.andThen_eq_some.mp fields
  obtain ⟨_, _, -, fields⟩ := Parser.andThen_eq_some.mp fields
  obtain ⟨_, _, -, fields⟩ := Parser.andThen_eq_some.mp fields
  obtain ⟨_, _, -, fields⟩ := Parser.andThen_eq_some.mp fields
  obtain ⟨rfl, -⟩ := Prod.mk.inj (Option.some.inj fields)
  obtain ⟨magic, rfl⟩ := readExact_eq_some first
  obtain ⟨⟨buf, _⟩, taken, number⟩ := Option.map_eq_some_iff.mp second
  obtain ⟨rfl, -⟩ := readExact_eq_some taken
  exact ⟨magic.symm, (Prod.mk.inj number).1.symm⟩

/-! ## The body -/

/-- A loop of the body that comes to its end. -/
def tierParser (keep : Bool) (n : ℕ) (mnt : List UINT64) : Parser UINT8 (List UINT64) := fun f =>
  match readTier keep n f mnt with
  | (true, f, mnt) => some (mnt, f)
  | (false, _, _) => none

def bodyParser (h : MntHeader) (policy : Policy) (mnt : List UINT64) : Parser UINT8 (List UINT64) :=
  (tierParser true h.nSound.toNat mnt).andThen fun mnt =>
  (tierParser (policy == .lean) h.nLeanExtra.toNat mnt).andThen fun mnt =>
  tierParser (policy == .v2Perpc) h.nV2Extra.toNat mnt

/-- The reads of a load into a fresh record. -/
def fileParser (policy : Policy) : Parser UINT8 (List UINT64) :=
  Parser.andThen readHeader fun h => Parser.check (h.version = 2) (bodyParser h policy [])

theorem tierParser_succ (keep : Bool) (n : ℕ) (mnt : List UINT64) :
    tierParser keep (n + 1) mnt =
      Parser.andThen read64 fun buf => tierParser keep n (if keep then mnt ++ [buf] else mnt) := by
  funext f
  simp only [tierParser, readTier, Parser.andThen]
  cases read64 f <;> rfl

theorem reads_tierParser (keep : Bool) (xs mnt : List UINT64) :
    Reads (tierParser keep xs.length mnt) (xs.flatMap bytes64)
      (mnt ++ if keep then xs else []) := by
  induction xs generalizing mnt with
  | nil =>
    have none : (if keep then ([] : List UINT64) else []) = [] := ite_self _
    rw [none, List.append_nil]
    exact .done mnt
  | cons x xs ih =>
    have pushed : (mnt ++ if keep then x :: xs else []) =
        (if keep then mnt ++ [x] else mnt) ++ if keep then xs else [] := by
      cases keep <;> simp
    rw [List.length_cons, tierParser_succ, List.flatMap_cons, pushed]
    exact .andThen (reads_read64 x) (ih _)

/-- The body is read to its end exactly when the three loops are. -/
theorem readBody_iff {h : MntHeader} {policy : Policy} {f : List UINT8} {mnt mnt' : List UINT64} :
    readBody h policy f mnt = (true, mnt') ↔
      ∃ rest, bodyParser h policy mnt f = some (mnt', rest) := by
  unfold readBody
  simp only [bodyParser, Parser.andThen, tierParser]
  rcases readTier true h.nSound.toNat f mnt with ⟨_ | _, f, mnt⟩
  · simp
  · dsimp only [Option.bind_some]
    rcases readTier (policy == .lean) h.nLeanExtra.toNat f mnt with ⟨_ | _, f, mnt⟩
    · simp
    · dsimp only [Option.bind_some]
      rcases readTier (policy == .v2Perpc) h.nV2Extra.toNat f mnt with ⟨_ | _, f, mnt⟩ <;> simp

theorem readFile_iff {policy : Policy} {f : List UINT8} {mnt : List UINT64} :
    readFile policy f = (true, mnt) ↔ ∃ rest, fileParser policy f = some (mnt, rest) := by
  simp only [fileParser, Parser.andThen_eq_some, Parser.check_eq_some]
  unfold readFile
  cases hh : readHeader f with
  | none => simp
  | some r =>
    obtain ⟨h, body⟩ := r
    by_cases version : h.version = 2
    · simp [version, readBody_iff]
    · dsimp only
      rw [if_pos version]
      constructor
      · rintro ⟨⟩
      · rintro ⟨_, _, _, same, accepted, -⟩
        obtain ⟨rfl, -⟩ := Prod.mk.inj (Option.some.inj same)
        exact absurd accepted version

/-! ## Loads -/

namespace MntFile

variable {m : MntFile} {policy : Policy} {x : UINT64}

theorem mem_offsets : x ∈ m.offsets policy ↔
    x ∈ m.sound ∨ (policy = .lean ∧ x ∈ m.leanExtra) ∨ (policy = .v2Perpc ∧ x ∈ m.v2Extra) := by
  cases policy <;> simp [offsets]

/-- The loader reads an encoded file, and refuses every part of it. -/
theorem reads_fileParser (m : MntFile) (policy : Policy) :
    Reads (fileParser policy) m.bytes (m.offsets policy) := by
  have count : ∀ n < 2 ^ 32, (BitVec.ofNat 32 n).toNat = n := fun n hn =>
    (BitVec.toNat_ofNat n 32).trans (Nat.mod_eq_of_lt hn)
  have body : Reads (bodyParser m.header policy [])
      (m.sound.flatMap bytes64 ++ (m.leanExtra.flatMap bytes64 ++ m.v2Extra.flatMap bytes64))
      (m.offsets policy) := by
    unfold bodyParser header
    rw [count _ m.sound_lt, count _ m.leanExtra_lt, count _ m.v2Extra_lt]
    exact .andThen (reads_tierParser true m.sound [])
      (.andThen (reads_tierParser _ m.leanExtra _) (reads_tierParser _ m.v2Extra _))
  exact .andThen (reads_readHeader m.header) (.check rfl body)

/-- From an encoded file, whatever follows it, the loader takes the offsets of the wanted tiers. -/
theorem readFile_bytes (m : MntFile) (policy : Policy) (trailing : List UINT8) :
    readFile policy (m.bytes ++ trailing) = (true, m.offsets policy) :=
  readFile_iff.mpr ⟨trailing, (m.reads_fileParser policy).whole trailing⟩

theorem readFile_part {part : List UINT8} (inside : part <+: m.bytes) (ne : part ≠ m.bytes) :
    (readFile policy part).1 = false := by
  rw [Bool.eq_false_iff]
  intro loads
  obtain ⟨rest, read⟩ := readFile_iff.mp (Prod.ext loads rfl : readFile policy part = (true, _))
  rw [(m.reads_fileParser policy).short part inside ne] at read
  cases read

end MntFile

/-- A file that loads has the magic and version 2. -/
theorem start_of_readFile {policy : Policy} {f : List UINT8}
    (loads : (readFile policy f).1 = true) :
    f.take 4 = mntMagic ∧ littleEndian ((f.drop 4).take 4) = 2 := by
  obtain ⟨rest, read⟩ := readFile_iff.mp (Prod.ext loads rfl : readFile policy f = (true, _))
  obtain ⟨h, body, header, checked⟩ := Parser.andThen_eq_some.mp read
  obtain ⟨version, -⟩ := Parser.check_eq_some.mp checked
  obtain ⟨magic, number⟩ := start_of_readHeader header
  refine ⟨magic, ?_⟩
  have short : ((f.drop 4).take 4).length ≤ 4 := List.length_take_le _ _
  have small : littleEndian ((f.drop 4).take 4) < 2 ^ 32 :=
    (littleEndian_lt _).trans_le (Nat.pow_le_pow_right (by decide) short)
  rw [number, ← BitVec.toNat_inj, BitVec.toNat_ofNat, Nat.mod_eq_of_lt small] at version
  exact version

/-- For any file that can be opened, and under any policy. If an encoded file is there, with
anything after it, it loads into a fresh record, and a search then finds the offsets of the
sound tier and of the one that the policy adds. A file with another magic or another version,
or an encoded file that is cut off anywhere, does not load. -/
theorem mnt_bin_decoded {host : Host} {path : Text} {f : List UINT8}
    (opened : host.openFile path = some f) (im : ImageMnt) (policy : Policy) :
    (∀ (m : MntFile) (trailing : List UINT8), f = m.bytes ++ trailing → im.mntSorted = [] →
      (loadMntBin host path im policy).1 = true ∧
        ∀ x, (loadMntBin host path im policy).2.hasOffset x = true ↔
          x ∈ m.sound ∨ (policy = .lean ∧ x ∈ m.leanExtra) ∨
            (policy = .v2Perpc ∧ x ∈ m.v2Extra)) ∧
    (f.take 4 ≠ mntMagic ∨ littleEndian ((f.drop 4).take 4) ≠ 2 →
      (loadMntBin host path im policy).1 = false) ∧
    ∀ m : MntFile, f <+: m.bytes → f ≠ m.bytes → (loadMntBin host path im policy).1 = false := by
  obtain ⟨loads, offsets⟩ := loadMntBin_offsets host path im policy
  have file : candidate host policy path = readFile policy f := by rw [candidate, opened]; rfl
  rw [file] at loads offsets
  refine ⟨?_, ?_, ?_⟩
  · rintro m trailing rfl fresh
    rw [m.readFile_bytes] at loads offsets
    refine ⟨loads, fun x => ?_⟩
    have sorted : (loadMntBin host path im policy).2.Sorted :=
      loadMntBin_sorted (Prod.ext loads rfl)
    rw [ImageMnt.hasOffset_iff sorted, offsets, fresh, MntFile.mem_offsets]
    simp
  · intro other
    rw [loads, Bool.eq_false_iff]
    intro accepted
    obtain ⟨magic, version⟩ := start_of_readFile accepted
    exact other.elim (fun h => h magic) fun h => h version
  · intro m inside ne
    rw [loads]
    exact MntFile.readFile_part inside ne

/-- Three tiers, unsorted and with an offset twice. -/
def threeTiers : MntFile where
  defaultPolicy := 0
  imageBase := 0x400000
  reserved := 0
  sound := [0x30, 0x10, 0x30]
  leanExtra := [0x20]
  v2Extra := [0x40]
  sound_lt := by decide
  leanExtra_lt := by decide
  v2Extra_lt := by decide

def freshImage : ImageMnt := ⟨[], 0x400000, 0x4fffff, 0, []⟩

/-- Under lean the second tier is found and the third is not; without its last byte the file does
not load. -/
theorem mnt_bin_decoded_lean :
    (loadMntBin (everywhere (threeTiers.bytes ++ [0])) [] freshImage .lean).2.hasOffset 0x20 =
        true ∧
      (loadMntBin (everywhere (threeTiers.bytes ++ [0])) [] freshImage .lean).2.hasOffset 0x40 =
        false ∧
      (loadMntBin (everywhere threeTiers.bytes.dropLast) [] freshImage .lean).1 = false := by
  have whole :
      (everywhere (threeTiers.bytes ++ [0])).openFile [] = some (threeTiers.bytes ++ [0]) := rfl
  obtain ⟨-, found⟩ := (mnt_bin_decoded whole freshImage .lean).1 threeTiers [0] rfl rfl
  have part : (everywhere threeTiers.bytes.dropLast).openFile [] = some threeTiers.bytes.dropLast :=
    rfl
  have cut := (mnt_bin_decoded part freshImage .lean).2.2 threeTiers
  refine ⟨(found 0x20).mpr (by decide), Bool.eq_false_iff.mpr fun h => ?_, cut ?_ ?_⟩
  · exact absurd ((found 0x40).mp h) (by decide)
  · exact List.dropLast_prefix _
  · decide

end LibdftDr
