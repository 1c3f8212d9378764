import LibdftDr.Mnt.Modules

/-!
# Opaque modules

A client passes `init` the basenames of modules to be treated as opaque. `init` encodes the
list in `VUZZER_MNT_POLICY`, and `mnt::init` reads its policy from there. The reader has no case
for such a value and takes the default: `world_eq_of_list` says that a list changes nothing,
`opaque_modules_skipped_iff` says when that is what the client has asked for.
-/
namespace LibdftDr
open Library

/-! ## The environment variable -/

/-- `"on:"` and the names with a comma between each two. -/
def encodeOpaque (names : List Text) : Text := "on:".toList ++ [','].intercalate names

/-- What `c_str()` hands to a function that reads up to the first NUL. -/
def cStr (s : Text) : Text := s.takeWhile (· ≠ '\x00')

/-- `VUZZER_MNT_POLICY` after `init` has looked at `opaque_modules`. `setenv` does not overwrite,
so a variable that is set and empty stays. -/
def policyEnv (opaqueModules : List Text) (existing : Option Text) : Option Text :=
  if opaqueModules = [] then existing
  else
    match existing with
    | none => some (cStr (encodeOpaque opaqueModules))
    | some p => some p

/-- `mnt::init` in this environment. -/
def mntInit (env : Option Text) : MntWorld := .init (parsePolicyEnv env)

/-- No list is decoded as such. -/
theorem parsePolicyEnv_policyEnv (names : List Text) (existing : Option Text) :
    parsePolicyEnv (policyEnv names existing) = parsePolicyEnv existing := by
  unfold policyEnv
  split_ifs
  · rfl
  · cases existing with
    | some p => rfl
    | none =>
      have start : cStr (encodeOpaque names) =
          'o' :: 'n' :: ':' :: cStr ([','].intercalate names) := rfl
      simp [start, parsePolicyEnv]

/-! ## Decisions -/

/-- A step is determined by its event. -/
theorem MntStep.unique {w t u : MntWorld} {e : MntEvent} (h : MntStep w e t) (h' : MntStep w e u) :
    t = u := by
  cases h with
  | load => cases h'; rfl
  | unload => cases h'; rfl
  | addRtnRange => cases h'; rfl
  | isMnt answer =>
    cases h' with
    | isMnt answer' =>
      obtain ⟨-, rfl⟩ := Prod.mk.inj (Except.ok.inj (answer.symm.trans answer'))
      rfl

/-- Whether propagation skips the address is `b`. -/
def MntWorld.Decides (w : MntWorld) (pc : ADDRINT) (b : Bool) : Prop :=
  ∃ s, w.mnt.isMnt pc = .ok (b, s)

/-- The basename that a list of opaque modules names the module by. -/
def ModuleData.basename (m : ModuleData) : Text := basenameOf (m.fullPath.getD [])

/-- What the client asks for with a list of names: code of the modules in it is skipped, and
all other code is skipped as without a list. -/
structure MntWorld.TreatsOpaque (names : List Text) (w w₀ : MntWorld) : Prop where
  listed : ∀ m ∈ w.loaded, m.basename ∈ names → ∀ pc, m.Contains pc → w.Decides pc true
  others : ∀ pc, (∀ m ∈ w.loaded, m.Contains pc → m.basename ∉ names) →
    ∀ b, w.Decides pc b ↔ w₀.Decides pc b

/-- The static analysis has every byte of the module, or a routine range covers it. -/
def MntWorld.MarksAll (w : MntWorld) (m : ModuleData) : Prop :=
  ∀ pc, m.Contains pc →
    (∃ im ∈ w.mnt.images, Describes m im ∧ im.hasOffset (pc - m.start) = true) ∨
      (w.mnt.rtnRangeContains pc).1 = true

section Runs

variable {names : List Text} {existing : Option Text} {events : List MntEvent} {w w₀ : MntWorld}
  {m : ModuleData} {pc : ADDRINT}

/-- With the list and without it the same events lead to the same world. -/
theorem world_eq_of_list
    (run : Run MntStep (mntInit (policyEnv names existing)) events w)
    (bare : Run MntStep (mntInit (policyEnv [] existing)) events w₀) : w = w₀ := by
  rw [mntInit, parsePolicyEnv_policyEnv] at run bare
  have determined : ∀ w e t u, MntStep w e t → MntStep w e u → t = u := fun _ _ _ _ =>
    MntStep.unique
  exact run.unique determined bare

theorem MntWorld.Valid.decides_iff (valid : w.Valid) (on : w.mnt.policy ≠ .off) :
    w.Decides pc true ↔
      (∃ im ∈ w.mnt.images, im.contains pc = true ∧ im.hasOffset (pc - im.low) = true) ∨
        (w.mnt.rtnRangeContains pc).1 = true := by
  rw [← scanAnswer_iff valid.separate]
  constructor
  · rintro ⟨s, answer⟩
    exact (MntState.isMnt_answer valid.cache valid.separate on answer).symm
  · intro scanned
    obtain ⟨b, s, answer, -⟩ := valid.isMnt pc
    refine ⟨s, ?_⟩
    rw [answer, MntState.isMnt_answer valid.cache valid.separate on answer, scanned]

/-- The image that contains an address of a module is the one made for it. -/
theorem MntWorld.Valid.describes (valid : w.Valid) (hm : m ∈ w.loaded) (inside : m.Contains pc)
    {im : ImageMnt} (mem : im ∈ w.mnt.images) (hin : im.contains pc = true) : Describes m im := by
  obtain ⟨n, hn, describes⟩ := MntWorld.exists_module valid mem
  have here := (describes.contains_iff pc).mp hin
  by_cases same : m = n
  · exact same ▸ describes
  · exact absurd here ((valid.apart.forall hm hn same).not_contains inside)

/-- All code of a module is skipped exactly when all of it is marked. -/
theorem MntWorld.Valid.marksAll_iff (valid : w.Valid) (on : w.mnt.policy ≠ .off)
    (hm : m ∈ w.loaded) : (∀ pc, m.Contains pc → w.Decides pc true) ↔ w.MarksAll m := by
  refine forall₂_congr fun pc inside => ?_
  rw [valid.decides_iff on]
  refine or_congr_left (exists_congr fun im => and_congr_right fun mem => ?_)
  constructor
  · rintro ⟨hin, holds⟩
    have describes := valid.describes hm inside mem hin
    exact ⟨describes, describes.low ▸ holds⟩
  · rintro ⟨describes, holds⟩
    exact ⟨(describes.contains_iff pc).mpr inside, describes.low ▸ holds⟩

/-- In every state of every run, with the variable unset before, a list of names does what the
client asks for if and only if all code of each loaded module in the list is marked anyway. -/
theorem opaque_modules_skipped_iff
    (run : Run MntStep (mntInit (policyEnv names none)) events w)
    (bare : Run MntStep (mntInit (policyEnv [] none)) events w₀) :
    w.TreatsOpaque names w₀ ↔ ∀ m ∈ w.loaded, m.basename ∈ names → w.MarksAll m := by
  obtain ⟨valid, policy⟩ := MntWorld.valid_of_run run
  rw [parsePolicyEnv_policyEnv] at policy
  have on : w.mnt.policy ≠ .off := by rw [policy]; decide
  constructor
  · intro treats m hm listed
    exact (valid.marksAll_iff on hm).mp (treats.listed m hm listed)
  · intro marked
    refine ⟨fun m hm listed => (valid.marksAll_iff on hm).mpr (marked m hm listed), ?_⟩
    intro pc _ b
    rw [world_eq_of_list run bare]

end Runs

/-- `libA` is loaded, and has one range registered for all of it. -/
def summarizedEvents : List MntEvent := [.load bareHost libA, .addRtnRange libA 0x1000 0x3000]

def summarizedWorld (w : MntWorld) : MntWorld :=
  (w.load bareHost libA).addRtnRange libA 0x1000 0x3000

theorem summarizedWorld_run (policy : Policy) :
    Run MntStep (.init policy) summarizedEvents (summarizedWorld (.init policy)) :=
  .cons (.load (by decide) (by simp [MntWorld.init])) (.cons .addRtnRange .nil)

/-- The range does what the list does not. -/
theorem opaque_modules_skipped_iff_summarized :
    (summarizedWorld (mntInit (policyEnv [libA.basename] none))).TreatsOpaque [libA.basename]
      (summarizedWorld (mntInit (policyEnv [] none))) := by
  have run := summarizedWorld_run (parsePolicyEnv (policyEnv [libA.basename] none))
  refine (opaque_modules_skipped_iff run (summarizedWorld_run _)).mpr fun m hm _ pc inside => ?_
  obtain rfl : m = libA := List.mem_singleton.mp hm
  exact .inr (MntWorld.covered_of_single (MntWorld.valid_of_run run).1 rfl inside)

/-- A module that is listed, and that has neither a `.mnt.bin` file nor a range, is not skipped. -/
theorem opaque_modules_not_skipped :
    ¬ ∀ (names : List Text) (events : List MntEvent) (w w₀ : MntWorld), names ≠ [] →
      Run MntStep (mntInit (policyEnv names none)) events w →
      Run MntStep (mntInit (policyEnv [] none)) events w₀ → w.TreatsOpaque names w₀ := by
  intro claim
  have loads (env : Option Text) :
      Run MntStep (mntInit env) [.load bareHost libA] ((mntInit env).load bareHost libA) :=
    .cons (.load (by decide) (by simp [mntInit, MntWorld.init])) .nil
  have run := loads (policyEnv [libA.basename] none)
  have bare := loads (policyEnv [] none)
  have marked := (opaque_modules_skipped_iff run bare).mp (claim _ _ _ _ (by simp) run bare)
  have inside : libA.Contains 0x1010 := ⟨by decide, by decide⟩
  obtain ⟨im, mem, -, holds⟩ | covered := marked libA (.head _) (.head _) 0x1010 inside
  · have none : ∀ im ∈ ((mntInit (policyEnv [libA.basename] none)).load bareHost libA).mnt.images,
        im.mntSorted = [] := by decide
    have offset := ImageMnt.mem_of_hasOffset holds
    rw [none im mem] at offset
    cases offset
  · exact absurd covered (by decide)

end LibdftDr
