import LibdftDr.Library.Runs
import LibdftDr.Mnt.Candidates
import Mathlib.Data.List.Forall2
import Mathlib.Data.List.Pairwise

/-!
# Module loads and unloads

The consumer in the process it lives in: modules come and go at disjoint addresses, routine
ranges are registered, addresses are looked up. `MntWorld` keeps beside the consumer's state
which modules are loaded and for which module each range was registered.
-/
namespace LibdftDr
open Library

namespace ModuleData

def Contains (m : ModuleData) (pc : ADDRINT) : Prop := m.start ≤ pc ∧ pc < m.stop

instance (m : ModuleData) (pc : ADDRINT) : Decidable (m.Contains pc) :=
  inferInstanceAs (Decidable (_ ∧ _))

/-- The address ranges do not meet. -/
def Apart (m n : ModuleData) : Prop := m.stop ≤ n.start ∨ n.stop ≤ m.start

instance (m n : ModuleData) : Decidable (m.Apart n) := inferInstanceAs (Decidable (_ ∨ _))

instance : Std.Symm Apart := ⟨fun _ _ h => h.symm⟩

theorem Apart.not_contains {m n : ModuleData} (h : m.Apart n) {pc : ADDRINT} (hm : m.Contains pc) :
    ¬ n.Contains pc := by
  rintro ⟨low, high⟩
  obtain ⟨low', high'⟩ := hm
  simp only [Apart, BitVec.le_def, BitVec.lt_def] at *
  omega

end ModuleData

structure MntWorld where
  loaded : List ModuleData
  mnt : MntState
  /-- The ranges registered so far, each with the module it was registered for. -/
  registered : List (ModuleData × RtnRange)

inductive MntEvent where
  | load (host : Host) (info : ModuleData)
  | unload (info : ModuleData)
  | addRtnRange (owner : ModuleData) (low high : ADDRINT)
  | isMnt (pc : ADDRINT)

namespace MntWorld

def init (policy : Policy) : MntWorld := ⟨[], MntState.init policy, []⟩

def load (w : MntWorld) (host : Host) (info : ModuleData) : MntWorld :=
  { w with loaded := w.loaded ++ [info], mnt := w.mnt.onModuleLoad host info }

def unload (w : MntWorld) (info : ModuleData) : MntWorld :=
  { w with loaded := w.loaded.erase info, mnt := w.mnt.onModuleUnload info }

def addRtnRange (w : MntWorld) (owner : ModuleData) (low high : ADDRINT) : MntWorld :=
  { w with
    mnt := w.mnt.addRtnRange low high
    registered := if high ≤ low then w.registered else w.registered ++ [(owner, low, high)] }

end MntWorld

inductive MntStep (w : MntWorld) : MntEvent → MntWorld → Prop
  | load {host info} (nonempty : info.start < info.stop) (apart : ∀ m ∈ w.loaded, m.Apart info) :
    MntStep w (.load host info) (w.load host info)
  | unload {info} (present : info ∈ w.loaded) : MntStep w (.unload info) (w.unload info)
  | addRtnRange {owner low high} :
    MntStep w (.addRtnRange owner low high) (w.addRtnRange owner low high)
  | isMnt {pc b s} (answer : MntState.isMnt pc w.mnt = .ok (b, s)) :
    MntStep w (.isMnt pc) { w with mnt := s }

/-- The image entry made for a module. -/
structure Describes (m : ModuleData) (im : ImageMnt) : Prop where
  nonempty : m.start < m.stop
  low : im.low = m.start
  high : im.high = m.stop - 1
  name : im.name = basenameOf (m.fullPath.getD [])

theorem Describes.contains_iff {m : ModuleData} {im : ImageMnt} (h : Describes m im)
    (pc : ADDRINT) : im.contains pc = true ↔ m.Contains pc := by
  have below : pc ≤ m.stop - 1 ↔ pc < m.stop := by
    have := h.nonempty
    simp only [BitVec.le_def, BitVec.lt_def, BitVec.toNat_sub] at *
    have := m.stop.isLt
    have := pc.isLt
    simp
    omega
  simp only [ImageMnt.contains, h.low, h.high, Bool.and_eq_true, decide_eq_true_eq, below,
    ModuleData.Contains]

/-- The paths at which a module's file is looked for. -/
def ModuleData.candidates (info : ModuleData) (host : Host) : List Text :=
  buildSearchPaths host (info.fullPath.getD [])

/-- The image entry that a load makes. -/
def imageOf (host : Host) (policy : Policy) (info : ModuleData) : ImageMnt :=
  loadFirst host policy (info.candidates host)
    { name := basenameOf (info.fullPath.getD []), low := info.start, high := info.stop - 1,
      fileImageBase := 0, mntSorted := [] }

theorem describes_imageOf {info : ModuleData} (nonempty : info.start < info.stop) (host : Host)
    (policy : Policy) : Describes info (imageOf host policy info) := by
  obtain ⟨name, low, high⟩ := loadFirst_frame host policy (info.candidates host)
    { name := basenameOf (info.fullPath.getD []), low := info.start, high := info.stop - 1,
      fileImageBase := 0, mntSorted := [] }
  exact ⟨nonempty, low, high, name⟩

theorem MntState.images_onModuleLoad {s : MntState} (on : s.policy ≠ .off) (host : Host)
    (info : ModuleData) :
    (s.onModuleLoad host info).images = s.images ++ [imageOf host s.policy info] := by
  rw [onModuleLoad, if_neg on]
  rfl

/-! ## The invariant -/

structure MntWorld.Valid (w : MntWorld) : Prop where
  nonempty : ∀ m ∈ w.loaded, m.start < m.stop
  apart : w.loaded.Pairwise ModuleData.Apart
  images : w.mnt.policy ≠ .off → List.Forall₂ Describes w.loaded w.mnt.images
  off : w.mnt.policy = .off → w.mnt.images = []
  cache : w.mnt.CacheLive
  ranges : w.mnt.ranges.Perm (w.registered.map Prod.snd)

/-- Erasing the first element that a test picks, on both sides of a relation. -/
theorem forall₂_eraseP {α β : Type*} {R : α → β → Prop} {p : α → Bool} {q : β → Bool}
    {xs : List α} {ys : List β} (h : List.Forall₂ R xs ys)
    (same : ∀ x ∈ xs, ∀ y, R x y → p x = q y) : List.Forall₂ R (xs.eraseP p) (ys.eraseP q) := by
  induction h with
  | nil => exact .nil
  | @cons x y xs ys head tail ih =>
    have hpq := same x (by simp) y head
    have rest := ih fun z hz => same z (List.mem_cons_of_mem x hz)
    cases hp : p x with
    | true => rw [List.eraseP_cons_of_pos hp, List.eraseP_cons_of_pos (hpq ▸ hp)]; exact tail
    | false =>
      have hq : ¬ q y = true := by simp [← hpq, hp]
      rw [List.eraseP_cons_of_neg (by simp [hp]), List.eraseP_cons_of_neg hq]
      exact .cons head rest

namespace MntWorld

variable {w : MntWorld}

theorem init_valid (policy : Policy) : (MntWorld.init policy).Valid where
  nonempty := by simp [MntWorld.init]
  apart := .nil
  images _ := .nil
  off _ := rfl
  cache := by rintro ref ⟨⟩
  ranges := .refl _

/-- A module is known by where it starts. -/
theorem Valid.eq_of_start (h : w.Valid) {m n : ModuleData} (hm : m ∈ w.loaded) (hn : n ∈ w.loaded)
    (start : m.start = n.start) : m = n := by
  by_contra hne
  have apart := h.apart.forall hm hn hne
  have := h.nonempty m hm
  have := h.nonempty n hn
  simp only [ModuleData.Apart, start, BitVec.le_def, BitVec.lt_def] at *
  omega

theorem Valid.separate (h : w.Valid) : w.mnt.Separate := by
  intro pc i j im jm hi hj him hjm
  by_cases off : w.mnt.policy = .off
  · simp [h.off off] at hi
  · have related := List.forall₂_iff_get.mp (h.images off)
    obtain ⟨hil, rfl⟩ := List.getElem?_eq_some_iff.mp hi
    obtain ⟨hjl, rfl⟩ := List.getElem?_eq_some_iff.mp hj
    have hil' : i < w.loaded.length := related.1 ▸ hil
    have hjl' : j < w.loaded.length := related.1 ▸ hjl
    have hmi := ((related.2 i hil' hil).contains_iff pc).mp him
    have hmj := ((related.2 j hjl' hjl).contains_iff pc).mp hjm
    obtain lt | eq | gt := Nat.lt_trichotomy i j
    · exact absurd hmj ((List.pairwise_iff_getElem.mp h.apart i j hil' hjl' lt).not_contains hmi)
    · exact eq
    · exact absurd hmi ((List.pairwise_iff_getElem.mp h.apart j i hjl' hil' gt).not_contains hmj)

theorem Valid.load (h : w.Valid) {host : Host} {info : ModuleData}
    (nonempty : info.start < info.stop) (apart : ∀ m ∈ w.loaded, m.Apart info) :
    (w.load host info).Valid where
  nonempty m hm := by
    obtain hm | hm := List.mem_append.mp hm
    · exact h.nonempty m hm
    · rwa [List.mem_singleton.mp hm]
  apart := by
    refine List.pairwise_append.mpr ⟨h.apart, List.pairwise_singleton _ _, fun m hm n hn => ?_⟩
    rw [List.mem_singleton.mp hn]
    exact apart m hm
  images on := by
    have hon : w.mnt.policy ≠ .off := by
      intro off
      simp [MntWorld.load, MntState.onModuleLoad, off] at on
    rw [MntWorld.load, MntState.images_onModuleLoad hon]
    exact List.rel_append (h.images hon) (.cons (describes_imageOf nonempty host _) .nil)
  off := by
    unfold MntWorld.load MntState.onModuleLoad
    split_ifs with off
    · exact h.off
    · exact fun hoff => absurd hoff off
  cache := by
    unfold MntWorld.load MntState.onModuleLoad
    split_ifs
    · exact h.cache
    · rintro ref ⟨⟩
  ranges := by
    unfold MntWorld.load MntState.onModuleLoad
    split_ifs <;> exact h.ranges

theorem Valid.unload (h : w.Valid) {info : ModuleData} (present : info ∈ w.loaded) :
    (w.unload info).Valid where
  nonempty m hm := h.nonempty m (List.mem_of_mem_erase hm)
  apart := h.apart.sublist List.erase_sublist
  images on := by
    have hon : w.mnt.policy ≠ .off := by
      intro off
      unfold MntWorld.unload MntState.onModuleUnload at on
      split_ifs at on <;> exact on off
    have related := h.images hon
    obtain ⟨i, hi⟩ := List.mem_iff_get.mp present
    have picked : (w.mnt.images.any fun im => im.low == info.start) = true := by
      obtain ⟨length, each⟩ := List.forall₂_iff_get.mp related
      have described := each i i.isLt (length ▸ i.isLt)
      refine List.any_eq_true.mpr ⟨_, List.get_mem _ ⟨i, length ▸ i.isLt⟩, ?_⟩
      rw [described.low, beq_iff_eq]
      exact congrArg ModuleData.start hi
    simp only [MntWorld.unload, MntState.onModuleUnload, picked, if_true, List.erase_eq_eraseP']
    refine forall₂_eraseP related fun m hm im him => ?_
    rw [him.low, Bool.eq_iff_iff, beq_iff_eq, beq_iff_eq]
    exact ⟨fun e => congrArg _ e, h.eq_of_start hm present⟩
  off := by
    unfold MntWorld.unload MntState.onModuleUnload
    split_ifs with picked
    · intro off
      simp [h.off off] at picked
    · exact h.off
  cache := by
    unfold MntWorld.unload MntState.onModuleUnload
    split_ifs
    · rintro ref ⟨⟩
    · exact h.cache
  ranges := by
    unfold MntWorld.unload MntState.onModuleUnload
    split_ifs <;> exact h.ranges

theorem Valid.addRtnRange (h : w.Valid) {owner : ModuleData} {low high : ADDRINT} :
    (w.addRtnRange owner low high).Valid := by
  unfold MntWorld.addRtnRange MntState.addRtnRange
  split_ifs
  · exact h
  · refine ⟨h.nonempty, h.apart, h.images, h.off, h.cache, ?_⟩
    rw [List.map_append]
    exact h.ranges.append_right _

theorem Valid.lookup (h : w.Valid) {pc : ADDRINT} {b : Bool} {s : MntState}
    (answer : MntState.isMnt pc w.mnt = .ok (b, s)) : Valid { w with mnt := s } := by
  obtain ⟨b', s', answer', frame, cache⟩ := MntState.isMnt_total h.cache pc
  obtain ⟨rfl, rfl⟩ := Prod.mk.inj (Except.ok.inj (answer.symm.trans answer'))
  exact ⟨h.nonempty, h.apart, by rw [frame.policy, frame.images]; exact h.images,
    by rw [frame.policy, frame.images]; exact h.off, cache, frame.ranges.trans h.ranges⟩

theorem Valid.step {w' : MntWorld} {e : MntEvent} (h : w.Valid) (step : MntStep w e w') :
    w'.Valid := by
  cases step with
  | load nonempty apart => exact h.load nonempty apart
  | unload present => exact h.unload present
  | addRtnRange => exact h.addRtnRange
  | isMnt answer => exact h.lookup answer

theorem Valid.policy_step {w' : MntWorld} {e : MntEvent} (h : w.Valid) (step : MntStep w e w') :
    w'.mnt.policy = w.mnt.policy := by
  cases step with
  | load nonempty apart =>
    simp only [MntWorld.load, MntState.onModuleLoad]
    split_ifs <;> rfl
  | unload present =>
    simp only [MntWorld.unload, MntState.onModuleUnload]
    split_ifs <;> rfl
  | addRtnRange =>
    simp only [MntWorld.addRtnRange, MntState.addRtnRange]
    split_ifs <;> rfl
  | @isMnt pc b s answer =>
    obtain ⟨b', s', answer', frame, -⟩ := MntState.isMnt_total h.cache pc
    obtain ⟨rfl, rfl⟩ := Prod.mk.inj (Except.ok.inj (answer.symm.trans answer'))
    exact frame.policy

theorem valid_of_run {policy : Policy} {events : List MntEvent}
    (run : Run MntStep (MntWorld.init policy) events w) : w.Valid ∧ w.mnt.policy = policy :=
  run.invariant (I := fun w => w.Valid ∧ w.mnt.policy = policy) ⟨init_valid policy, rfl⟩
    fun _ _ _ h step => ⟨h.1.step step, (h.1.policy_step step).trans h.2⟩

/-- Any lookup can be made next. -/
theorem Valid.isMnt (h : w.Valid) (pc : ADDRINT) :
    ∃ b s, MntState.isMnt pc w.mnt = .ok (b, s) ∧ MntStep w (.isMnt pc) { w with mnt := s } := by
  obtain ⟨b, s, answer, -, -⟩ := MntState.isMnt_total h.cache pc
  exact ⟨b, s, answer, .isMnt answer⟩

end MntWorld

/-! ## The cache -/

/-- With the first hit the only hit, the scan finds an image exactly when one holds the offset. -/
theorem scanAnswer_iff {s : MntState} (separate : s.Separate) (pc : ADDRINT) :
    s.scanAnswer pc = true ↔
      (∃ im ∈ s.images, im.contains pc = true ∧ im.hasOffset (pc - im.low) = true) ∨
      (s.rtnRangeContains pc).1 = true := by
  rw [MntState.rtnRangeContains_fst, MntState.scanAnswer, Bool.or_eq_true]
  refine or_congr_left ⟨fun h => ?_, ?_⟩
  · obtain ⟨im, found, holds⟩ := (Option.any_eq_true _ _).mp h
    exact ⟨im, List.mem_of_find?_eq_some found, by simpa using List.find?_some found, holds⟩
  · rintro ⟨im, him, hin, holds⟩
    rw [separate.find him hin]
    exact holds

namespace MntWorld

variable {w : MntWorld} {policy : Policy}

/-- The cache is empty or live, the images are those of the loaded modules and no two of them
share an address, and every lookup answers as a scan without the cache does. -/
structure CacheUnseen (w : MntWorld) : Prop where
  cache : w.mnt.lastImg = none ∨ ∃ ref im, w.mnt.lastImg = some ref ∧ w.mnt.deref ref = .ok im
  images : List.Forall₂ Describes w.loaded w.mnt.images
  separate : w.mnt.Separate
  scan : ∀ pc, ∃ b s s', w.mnt.isMnt pc = .ok (b, s) ∧
    MntState.isMnt pc { w.mnt with lastImg := none } = .ok (b, s')

/-- The answer is 1 exactly for an offset of the module around the address and in a routine
range. -/
def AnswersByOffsets (w : MntWorld) : Prop :=
  ∀ pc b s, w.mnt.isMnt pc = .ok (b, s) → (b = true ↔
    (∃ m ∈ w.loaded, ∃ im ∈ w.mnt.images, Describes m im ∧ m.Contains pc ∧
      pc - m.start ∈ im.mntSorted) ∨ (w.mnt.rtnRangeContains pc).1 = true)

/-- The search finds every offset of an image that lies inside it. -/
def Found (w : MntWorld) : Prop :=
  ∀ im ∈ w.mnt.images, ∀ pc, im.contains pc = true → pc - im.low ∈ im.mntSorted →
    im.hasOffset (pc - im.low) = true

/-- Modules are loaded from these files only. -/
def LoadsOnly (allowed : Host → ModuleData → Prop) (_ : MntWorld) : MntEvent → Prop
  | .load host info => allowed host info
  | _ => True

theorem Valid.cacheUnseen (h : w.Valid) (on : w.mnt.policy ≠ .off) : w.CacheUnseen where
  cache := by
    cases hl : w.mnt.lastImg with
    | none => exact .inl rfl
    | some ref =>
      obtain ⟨im, him⟩ := h.cache ref hl
      exact .inr ⟨ref, im, rfl, him⟩
  images := h.images on
  separate := h.separate
  scan pc := by
    have emptied : MntState.CacheLive { w.mnt with lastImg := none } := by rintro ref ⟨⟩
    obtain ⟨b, s, answer, -, -⟩ := MntState.isMnt_total h.cache pc
    obtain ⟨b', s', answer', -, -⟩ := MntState.isMnt_total emptied pc
    have hb := MntState.isMnt_answer h.cache h.separate on answer
    have hb' : b' = w.mnt.scanAnswer pc := by
      rw [MntState.isMnt_answer emptied h.separate on answer']
      simp only [MntState.scanAnswer, MntState.settle_ranges]
    exact ⟨b, s, s', answer, by rw [answer', hb', hb]⟩

theorem exists_module (valid : w.Valid) {im : ImageMnt} (mem : im ∈ w.mnt.images) :
    ∃ m ∈ w.loaded, Describes m im := by
  have on : w.mnt.policy ≠ .off := fun off => by simp [valid.off off] at mem
  obtain ⟨length, each⟩ := List.forall₂_iff_get.mp (valid.images on)
  obtain ⟨i, rfl⟩ := List.mem_iff_get.mp mem
  have hi : (i : ℕ) < w.loaded.length := length.symm ▸ i.isLt
  exact ⟨_, List.get_mem _ ⟨i, hi⟩, each i hi i.isLt⟩

/-- A lookup that is answered 1 has found an offset or a range. -/
theorem Valid.answer_iff (h : w.Valid) (on : w.mnt.policy ≠ .off) {pc : ADDRINT} {b : Bool}
    {s : MntState} (answer : w.mnt.isMnt pc = .ok (b, s)) : b = true ↔
      (∃ im ∈ w.mnt.images, im.contains pc = true ∧ im.hasOffset (pc - im.low) = true) ∨
        (w.mnt.rtnRangeContains pc).1 = true := by
  rw [MntState.isMnt_answer h.cache h.separate on answer, scanAnswer_iff h.separate]

theorem Valid.answersByOffsets (h : w.Valid) (on : w.mnt.policy ≠ .off) (found : w.Found) :
    w.AnswersByOffsets := by
  intro pc b s answer
  rw [h.answer_iff on answer]
  refine or_congr_left ⟨?_, ?_⟩
  · rintro ⟨im, mem, inside, holds⟩
    obtain ⟨m, loaded, describes⟩ := exists_module h mem
    refine ⟨m, loaded, im, mem, describes, (describes.contains_iff pc).mp inside, ?_⟩
    rw [← describes.low]
    exact ImageMnt.mem_of_hasOffset holds
  · rintro ⟨m, -, im, mem, describes, contains, offset⟩
    have inside := (describes.contains_iff pc).mpr contains
    rw [← describes.low] at offset
    exact ⟨im, mem, inside, found im mem pc inside offset⟩

end MntWorld

/-- A candidate file of the module loads, or the search finds those offsets inside the module that
the candidates have left. -/
def Searchable (host : Host) (policy : Policy) (info : ModuleData) : Prop :=
  firstGood host policy (info.candidates host) = none → ∀ pc, info.Contains pc →
    pc - info.start ∈ leftBehind host policy (info.candidates host) →
    binarySearch BitVec.toNat (leftBehind host policy (info.candidates host)) (pc - info.start) =
      true

/-- Offsets that are left in ascending order are found. -/
theorem searchable_of_sorted {host : Host} {policy : Policy} {info : ModuleData}
    (sorted : (leftBehind host policy (info.candidates host)).Pairwise
      fun x y => x.toNat ≤ y.toNat) : Searchable host policy info :=
  fun _ _ _ offset => (binarySearch_iff sorted).mpr ⟨_, offset, rfl⟩

/-- Without a candidate that loads, the image is searched as it was left. -/
theorem hasOffset_imageOf {host : Host} {policy : Policy} {info : ModuleData}
    (none : firstGood host policy (info.candidates host) = none) (rel : UINT64) :
    (imageOf host policy info).mntSorted = leftBehind host policy (info.candidates host) ∧
      (imageOf host policy info).hasOffset rel =
        binarySearch BitVec.toNat (leftBehind host policy (info.candidates host)) rel := by
  have left : (imageOf host policy info).mntSorted =
      leftBehind host policy (info.candidates host) := loadFirst_of_none none
  exact ⟨left, by rw [ImageMnt.hasOffset, left]⟩

namespace MntWorld

variable {w : MntWorld} {host : Host} {info : ModuleData}

/-- A loaded module has its image. -/
theorem imageOf_mem_images {policy : Policy} (kept : (w.load host info).mnt.policy = policy)
    (on : policy ≠ .off) : imageOf host policy info ∈ (w.load host info).mnt.images := by
  have same : w.mnt.policy = policy := by
    rw [← kept, MntWorld.load, MntState.onModuleLoad]
    dsimp only
    split_ifs <;> rfl
  rw [← same] at on ⊢
  rw [MntWorld.load, MntState.images_onModuleLoad on]
  exact List.mem_append_right _ (List.mem_singleton_self _)

theorem Found.load (h : w.Found) (nonempty : info.start < info.stop)
    (searchable : Searchable host w.mnt.policy info) : (w.load host info).Found := by
  by_cases off : w.mnt.policy = .off
  · rw [MntWorld.load, MntState.onModuleLoad, if_pos off]
    exact h
  intro im mem pc inside offset
  rw [MntWorld.load, MntState.images_onModuleLoad off] at mem
  obtain old | new := List.mem_append.mp mem
  · exact h im old pc inside offset
  obtain rfl := List.mem_singleton.mp new
  have describes := describes_imageOf nonempty host w.mnt.policy
  cases good : firstGood host w.mnt.policy (info.candidates host) with
  | some path =>
    have sorted : (imageOf host w.mnt.policy info).Sorted := loadFirst_sorted (by simp [good])
    exact (ImageMnt.hasOffset_iff sorted _).mpr offset
  | none =>
    obtain ⟨left, search⟩ := hasOffset_imageOf good (pc - info.start)
    rw [describes.low] at offset ⊢
    rw [search]
    exact searchable good pc ((describes.contains_iff pc).mp inside) (left ▸ offset)

theorem Found.step {w' : MntWorld} {e : MntEvent} (h : w.Found) (valid : w.Valid)
    (step : MntStep w e w') (loads : w.LoadsOnly (fun host => Searchable host w.mnt.policy) e) :
    w'.Found := by
  cases step with
  | load nonempty apart => exact h.load nonempty loads
  | @unload info present =>
    unfold MntWorld.unload MntState.onModuleUnload
    split_ifs
    · exact fun im mem => h im (List.mem_of_mem_eraseP mem)
    · exact h
  | addRtnRange =>
    unfold MntWorld.addRtnRange MntState.addRtnRange
    split_ifs <;> exact h
  | @isMnt pc b s answer =>
    obtain ⟨b', s', answer', frame, -⟩ := MntState.isMnt_total valid.cache pc
    obtain ⟨rfl, rfl⟩ := Prod.mk.inj (Except.ok.inj (answer.symm.trans answer'))
    intro im mem
    exact h im (frame.images ▸ mem)

/-- With searchable loads every offset is found in every state of a run. -/
theorem found_of_run {policy : Policy} {allowed : Host → ModuleData → Prop}
    {events : List MntEvent}
    (searchable : ∀ host info, allowed host info → info.start < info.stop →
      Searchable host policy info)
    (run : Run (Where MntStep (LoadsOnly allowed)) (MntWorld.init policy) events w) : w.Found := by
  refine (run.invariant (I := fun w => w.Valid ∧ w.mnt.policy = policy ∧ w.Found)
    ⟨init_valid policy, rfl, by rintro im ⟨⟩⟩ ?_).2.2
  rintro w e w' ⟨valid, rfl, found⟩ ⟨step, loads⟩
  refine ⟨valid.step step, valid.policy_step step, found.step valid step ?_⟩
  cases step with
  | load nonempty apart => exact searchable _ _ loads nonempty
  | unload | addRtnRange | isMnt => trivial

/-- An offset that the search misses is answered 0 right after the load. -/
theorem searchable_of_answers {policy : Policy} (on : policy ≠ .off)
    (nonempty : info.start < info.stop)
    (answers : ((MntWorld.init policy).load host info).AnswersByOffsets) :
    Searchable host policy info := by
  intro none pc contains offset
  have step : MntStep (MntWorld.init policy) (.load host info) _ :=
    .load nonempty (by simp [MntWorld.init])
  have valid := (init_valid policy).step step
  have images : ((MntWorld.init policy).load host info).mnt.images = [imageOf host policy info] :=
    MntState.images_onModuleLoad (s := .init policy) on host info
  have on' : ((MntWorld.init policy).load host info).mnt.policy ≠ .off :=
    ((init_valid policy).policy_step step).symm ▸ on
  have describes := describes_imageOf nonempty host policy
  obtain ⟨left, search⟩ := hasOffset_imageOf none (pc - info.start)
  obtain ⟨b, s, answer, -⟩ := valid.isMnt pc
  have member : b = true := by
    refine (answers pc b s answer).mpr (.inl ⟨info, by simp [MntWorld.load],
      imageOf host policy info, by simp [images], describes, contains, ?_⟩)
    rwa [left]
  obtain ⟨im, mem, -, holds⟩ | range := (valid.answer_iff on' answer).mp member
  · obtain rfl := List.mem_singleton.mp (images ▸ mem)
    rwa [describes.low, search] at holds
  · have empty : ((MntWorld.init policy).load host info).mnt.ranges = [] := by
      simp [MntWorld.load, MntState.onModuleLoad, MntWorld.init, MntState.init, on]
    simp [MntState.rtnRangeContains, empty] at range

end MntWorld

/-- The one-entry cache is never seen: after any run over disjoint modules, under any policy but
off, it is empty or live, and every lookup answers as a scan without it does. The answers follow
the offsets of the images in all runs if and only if every module that may be loaded has a
candidate file that loads, or the search finds what its candidates leave behind. -/
theorem is_mnt_cache_transparent {policy : Policy} (on : policy ≠ .off) :
    (∀ events w, Run MntStep (MntWorld.init policy) events w → w.CacheUnseen) ∧
    ∀ allowed : Host → ModuleData → Prop,
      (∀ events w, Run (Where MntStep (MntWorld.LoadsOnly allowed)) (MntWorld.init policy)
        events w → w.AnswersByOffsets) ↔
      ∀ host info, allowed host info → info.start < info.stop → Searchable host policy info := by
  refine ⟨fun events w run => ?_, fun allowed => ⟨fun answers host info allow nonempty => ?_,
    fun searchable events w run => ?_⟩⟩
  · obtain ⟨valid, rfl⟩ := MntWorld.valid_of_run run
    exact valid.cacheUnseen on
  · have step : MntStep (MntWorld.init policy) (.load host info) _ :=
      .load nonempty (by simp [MntWorld.init])
    exact MntWorld.searchable_of_answers on nonempty (answers _ _ (.cons ⟨step, allow⟩ .nil))
  · obtain ⟨valid, rfl⟩ := MntWorld.valid_of_run run.forget
    exact valid.answersByOffsets on (MntWorld.found_of_run searchable run)

/-- A machine without `.mnt.bin` files. -/
def bareHost : Host := ⟨fun _ => none, fun _ => none, none⟩

/-- Two libraries that are mapped at the same address, one after the other. -/
def libA : ModuleData := ⟨0x1000, 0x3000, some ['a', '.', 's', 'o']⟩
def libB : ModuleData := ⟨0x1000, 0x3000, some ['b', '.', 's', 'o']⟩

/-- A file of one sound offset and two of the lean tier that ends after the first of these. Each
tier is sorted. -/
def cutInLean : List UINT8 :=
  [0x4d, 0x4e, 0x54, 0x42] ++ [2, 0, 0, 0] ++ List.replicate 12 0 ++ [1, 0, 0, 0] ++ [2, 0, 0, 0] ++
    List.replicate 8 0 ++ [0x30, 0, 0, 0, 0, 0, 0, 0] ++ [0x10, 0, 0, 0, 0, 0, 0, 0]

theorem cutOff_searchable {info : ModuleData} (h : info = libA ∨ info = libB) :
    Searchable (everywhere cutOff) .lean info := by
  have left : leftBehind (everywhere cutOff) .lean (info.candidates (everywhere cutOff)) =
      [0x10] := by
    obtain rfl | rfl := h <;> rfl
  apply searchable_of_sorted
  rw [left]
  exact List.pairwise_singleton _ _

/-- A lookup fills the cache, the image it points to goes, another comes in its place. The single
offset that the file leaves behind is found. -/
theorem is_mnt_cache_transparent_reload : ∃ w s,
    Run MntStep (MntWorld.init .lean) [.load (everywhere cutOff) libA, .isMnt 0x1010,
      .unload libA, .load (everywhere cutOff) libB] w ∧
    w.CacheUnseen ∧ w.mnt.isMnt 0x1010 = .ok (true, s) := by
  have load : MntStep (MntWorld.init .lean) (.load (everywhere cutOff) libA) _ :=
    .load (by decide) (by simp [MntWorld.init])
  obtain ⟨b, s, answer, lookup⟩ := ((MntWorld.init_valid .lean).step load).isMnt 0x1010
  have present : libA ∈ (MntWorld.init .lean).loaded ++ [libA] := by simp
  have reload : ∀ m ∈ ((MntWorld.init .lean).loaded ++ [libA]).erase libA, m.Apart libB := by
    decide
  have run : Run (Where MntStep (MntWorld.LoadsOnly fun host info =>
      host = everywhere cutOff ∧ (info = libA ∨ info = libB))) (MntWorld.init .lean)
      [.load (everywhere cutOff) libA, .isMnt 0x1010, .unload libA,
        .load (everywhere cutOff) libB] _ :=
    .cons ⟨load, rfl, .inl rfl⟩ <| .cons ⟨lookup, trivial⟩ <| .cons ⟨.unload present, trivial⟩ <|
    .cons ⟨.load (by decide) reload, rfl, .inr rfl⟩ .nil
  obtain ⟨always, exactly⟩ := is_mnt_cache_transparent (by decide : Policy.lean ≠ .off)
  have answers := (exactly _).mpr
    (by rintro _ info ⟨rfl, lib⟩ -; exact cutOff_searchable lib) _ _ run
  obtain ⟨valid, on⟩ := MntWorld.valid_of_run run.forget
  obtain ⟨b, s', answer, -⟩ := valid.isMnt 0x1010
  refine ⟨_, s', run.forget, always _ _ run.forget, ?_⟩
  have member : b = true := by
    refine (answers 0x1010 b s' answer).mpr (.inl ⟨libB, by simp [MntWorld.load],
      imageOf (everywhere cutOff) .lean libB, ?_, describes_imageOf (by decide) _ _, by decide, ?_⟩)
    · exact MntWorld.imageOf_mem_images on (by decide)
    · rw [(hasOffset_imageOf rfl 0x10).1]
      decide
  exact member ▸ answer

/-- The search misses an offset of a file that is cut off: the lookup answers 0 for it. -/
theorem is_mnt_misses_offset :
    ¬ ∀ (policy : Policy) (events : List MntEvent) (w : MntWorld), policy ≠ .off →
      Run MntStep (MntWorld.init policy) events w → w.CacheUnseen ∧ w.AnswersByOffsets := by
  intro claim
  have load : MntStep (MntWorld.init .lean) (.load (everywhere cutInLean) libA) _ :=
    .load (by decide) (by simp [MntWorld.init])
  obtain ⟨-, answers⟩ := claim .lean _ _ (by decide) (.cons load .nil)
  have left : leftBehind (everywhere cutInLean) .lean (libA.candidates (everywhere cutInLean)) =
      [0x30, 0x10] := rfl
  have found := MntWorld.searchable_of_answers (by decide) (by decide) answers rfl 0x1030
    (by decide) (by rw [left]; decide)
  rw [left] at found
  simp [binarySearch, lowerBound, bisect, libA] at found

/-! ## Ranges of modules that are gone -/

namespace MntWorld

/-- A range is registered while its module is loaded, for code inside it. -/
def InOrder (w : MntWorld) : MntEvent → Prop
  | .addRtnRange owner low high => owner ∈ w.loaded ∧ owner.start ≤ low ∧ high ≤ owner.stop
  | _ => True

/-- No module goes while a range is registered for it. -/
def LeavesNone (w : MntWorld) : MntEvent → Prop
  | .unload info => ∀ r ∈ w.registered, r.1 ≠ info
  | _ => True

/-- An address is reported only for a loaded module: by its offsets or by its own ranges. -/
def ReportsLoaded (w : MntWorld) : Prop :=
  ∀ pc s, w.mnt.isMnt pc = .ok (true, s) → ∃ m ∈ w.loaded, m.Contains pc ∧
    ((∃ im ∈ w.mnt.images, Describes m im ∧ pc - m.start ∈ im.mntSorted) ∨
      ∃ r ∈ w.registered, r.1 = m ∧ r.2.1 ≤ pc ∧ pc < r.2.2)

/-- Every range belongs to a loaded module and lies inside it. -/
def Owned (w : MntWorld) : Prop :=
  ∀ r ∈ w.registered, r.1 ∈ w.loaded ∧ r.1.start ≤ r.2.1 ∧ r.2.2 ≤ r.1.stop

variable {w : MntWorld}

theorem Owned.step {w' : MntWorld} {e : MntEvent} (h : w.Owned) (step : MntStep w e w')
    (order : w.InOrder e) (leaves : w.LeavesNone e) : w'.Owned := by
  cases step with
  | load nonempty apart =>
    intro r hr
    obtain ⟨mem, inside⟩ := h r hr
    exact ⟨List.mem_append_left _ mem, inside⟩
  | unload present =>
    intro r hr
    obtain ⟨mem, inside⟩ := h r hr
    exact ⟨(List.mem_erase_of_ne (leaves r hr)).mpr mem, inside⟩
  | addRtnRange =>
    intro r hr
    unfold MntWorld.addRtnRange at hr
    dsimp only at hr
    split_ifs at hr
    · exact h r hr
    · obtain hr | hr := List.mem_append.mp hr
      · exact h r hr
      · obtain rfl := List.mem_singleton.mp hr
        exact order
  | isMnt answer => exact h

theorem exists_range (valid : w.Valid) {pc : ADDRINT}
    (h : (w.mnt.rtnRangeContains pc).1 = true) :
    ∃ r ∈ w.registered, r.2.1 ≤ pc ∧ pc < r.2.2 := by
  rw [MntState.rtnRangeContains_fst] at h
  obtain ⟨range, mem, inside⟩ := MntState.exists_of_coveredBy h
  have mem' := (w.mnt.settle_frame.1.ranges.trans valid.ranges).mem_iff.mp mem
  obtain ⟨r, hr, rfl⟩ := List.mem_map.mp mem'
  exact ⟨r, hr, inside⟩

/-- A range that is alone is found. -/
theorem covered_of_single (valid : w.Valid) {owner : ModuleData} {low high pc : ADDRINT}
    (alone : w.registered = [(owner, low, high)]) (inside : low ≤ pc ∧ pc < high) :
    (w.mnt.rtnRangeContains pc).1 = true := by
  have perm := w.mnt.settle_frame.1.ranges.trans valid.ranges
  rw [alone] at perm
  have before : rangeLt (low, high) (pc + 1, 0) = true := by
    simp only [rangeLt, Bool.or_eq_true, decide_eq_true_eq]
    have := toNat_add_one_of_lt inside.2
    simp only [BitVec.le_def, BitVec.lt_def] at *
    omega
  rw [MntState.rtnRangeContains_fst, List.perm_singleton.mp perm]
  simp only [BitVec.ofNat_eq_ofNat] at before
  simp [MntState.coveredBy, lowerBound, bisect, before, inside]

theorem reportsLoaded_of_owned (valid : w.Valid) (owned : w.Owned) : w.ReportsLoaded := by
  intro pc s answer
  have byRange : (w.mnt.rtnRangeContains pc).1 = true → ∃ m ∈ w.loaded, m.Contains pc ∧
      ((∃ im ∈ w.mnt.images, Describes m im ∧ pc - m.start ∈ im.mntSorted) ∨
        ∃ r ∈ w.registered, r.1 = m ∧ r.2.1 ≤ pc ∧ pc < r.2.2) := by
    intro h
    obtain ⟨r, hr, low, high⟩ := exists_range valid h
    obtain ⟨mem, start, stop⟩ := owned r hr
    have contains : r.1.Contains pc := by
      simp only [ModuleData.Contains, BitVec.le_def, BitVec.lt_def] at *
      omega
    exact ⟨r.1, mem, contains, .inr ⟨r, hr, rfl, low, high⟩⟩
  by_cases off : w.mnt.policy = .off
  · simp only [MntState.isMnt, off, if_true, Except.ok.injEq] at answer
    apply byRange
    rw [← MntState.rangeAnswer_fst, answer]
  · have reported := MntState.isMnt_answer valid.cache valid.separate off answer
    obtain ⟨im, mem, hin, holds⟩ | h := (scanAnswer_iff valid.separate pc).mp reported.symm
    · obtain ⟨m, hm, describes⟩ := exists_module valid mem
      refine ⟨m, hm, (describes.contains_iff pc).mp hin, .inl ⟨im, mem, describes, ?_⟩⟩
      rw [← describes.low]
      exact ImageMnt.mem_of_hasOffset holds
    · exact byRange h

end MntWorld

/-- `libA` has a range registered, goes, and `libB` is mapped in its place. -/
def remapped : MntWorld :=
  ((((MntWorld.init .sound).load bareHost libA).addRtnRange libA 0x1100 0x1200).unload libA).load
    bareHost libB

/-- The routine ranges outlive their module: code of a newcomer at the same addresses is
reported because of the old registration. -/
theorem is_mnt_reports_unloaded :
    ¬ ∀ (policy : Policy) (events : List MntEvent) (w : MntWorld),
      Run (Where MntStep MntWorld.InOrder) (MntWorld.init policy) events w → w.ReportsLoaded := by
  intro claim
  have run : Run (Where MntStep MntWorld.InOrder) (MntWorld.init .sound)
      [.load bareHost libA, .addRtnRange libA 0x1100 0x1200, .unload libA, .load bareHost libB]
      remapped :=
    .cons ⟨.load (by decide) (by simp [MntWorld.init]), trivial⟩ <|
    .cons ⟨.addRtnRange, by decide, by decide, by decide⟩ <|
    .cons ⟨.unload (by decide), trivial⟩ <|
    .cons ⟨.load (by decide) (by decide), trivial⟩ .nil
  obtain ⟨valid, on⟩ := MntWorld.valid_of_run run.forget
  obtain ⟨b, s, answer, -⟩ := valid.isMnt 0x1150
  have reported := MntState.isMnt_answer valid.cache valid.separate (by rw [on]; decide) answer
  obtain rfl : b = true := by
    rw [reported, scanAnswer_iff valid.separate]
    exact .inr (MntWorld.covered_of_single valid rfl (by decide))
  obtain ⟨m, hm, -, ⟨im, mem, -, offset⟩ | ⟨r, hr, same, -⟩⟩ := claim _ _ _ run _ _ answer
  · have bare : ∀ im ∈ remapped.mnt.images, im.mntSorted = [] := by decide
    rw [bare im mem] at offset
    cases offset
  · obtain rfl : m = libB := List.mem_singleton.mp hm
    obtain rfl : r = (libA, 0x1100, 0x1200) := List.mem_singleton.mp hr
    exact absurd same (by decide)

/-- As long as no module goes while a range is registered for it, an address is reported only
for a loaded module, by its offsets or by a range registered for that same module. -/
theorem is_mnt_reports_loaded {policy : Policy} {events : List MntEvent} {w : MntWorld}
    (run : Run (Where MntStep fun w e => w.InOrder e ∧ w.LeavesNone e) (MntWorld.init policy)
      events w) : w.ReportsLoaded := by
  have owned : w.Owned := by
    refine run.invariant (I := MntWorld.Owned) ?_ fun _ _ _ h step => ?_
    · rintro r ⟨⟩
    · exact h.step step.1 step.2.1 step.2.2
  exact MntWorld.reportsLoaded_of_owned (MntWorld.valid_of_run run.forget).1 owned

/-- A library beside `libA` that goes while `libA` has a range registered. -/
def libC : ModuleData := ⟨0x5000, 0x6000, some ['c', '.', 's', 'o']⟩

def kept : MntWorld :=
  ((((MntWorld.init .lean).load bareHost libA).addRtnRange libA 0x1100 0x1200).load
    bareHost libC).unload libC

/-- The same registration while its library stays and another one goes. -/
theorem is_mnt_reports_loaded_kept :
    Run (Where MntStep fun w e => w.InOrder e ∧ w.LeavesNone e) (MntWorld.init .lean)
      [.load bareHost libA, .addRtnRange libA 0x1100 0x1200, .load bareHost libC, .unload libC]
      kept ∧ kept.ReportsLoaded := by
  have run : Run (Where MntStep fun w e => w.InOrder e ∧ w.LeavesNone e) (MntWorld.init .lean)
      [.load bareHost libA, .addRtnRange libA 0x1100 0x1200, .load bareHost libC, .unload libC]
      kept :=
    .cons ⟨.load (by decide) (by simp [MntWorld.init]), trivial, trivial⟩ <|
    .cons ⟨.addRtnRange, ⟨by decide, by decide, by decide⟩, trivial⟩ <|
    .cons ⟨.load (by decide) (by decide), trivial, trivial⟩ <|
    .cons ⟨.unload (by decide), trivial, by
      show ∀ r ∈ [(libA, _)], r.1 ≠ libC
      decide⟩ .nil
  exact ⟨run, is_mnt_reports_loaded run⟩

end LibdftDr
