import LibdftDr.Machine.Events

/-!
# Reads above the last user address

`tag_dir_getb` dereferences what the lookup answers, and the lookup answers `NULL` above the
last user address. In every state of a run, whatever looks at the shadow faults exactly when
one of the addresses it looks at is there.
-/
namespace LibdftDr
open Library

theorem not_forall_le_iff {A : Set ADDRINT} :
    ¬ (∀ a ∈ A, a ≤ lastAddress) ↔ ∃ a ∈ A, lastAddress < a := by
  simp [BitVec.not_le]

/-- An action that returns under a condition and dereferences `NULL` otherwise. -/
theorem nullDeref_iff {α : Type} {f : Engine α} {s : Shadow} {A : Set ADDRINT}
    (returns : (∀ a ∈ A, a ≤ lastAddress) → ∃ r t, f s = .ok (r, t))
    (faults : ¬ (∀ a ∈ A, a ≤ lastAddress) → f s = .error .nullDeref) :
    ((∃ r t, f s = .ok (r, t)) ↔ ∀ a ∈ A, a ≤ lastAddress) ∧
      (f s = .error .nullDeref ↔ ∃ a ∈ A, lastAddress < a) := by
  rw [← not_forall_le_iff]
  by_cases h : ∀ a ∈ A, a ≤ lastAddress
  · obtain ⟨r, t, run⟩ := returns h
    simpa [run] using h
  · simp [h, faults h]

/-- In every reachable state the lookup of an address, every event and the scan of an argument
return exactly when no address they look at is above the last user address, and dereference
`NULL` otherwise. -/
theorem shadow_read_returns_iff {es : List Event} {s : Shadow} (run : Run Step Shadow.new es s) :
    (∀ addr, fileTagmapGetb s.tagDir addr = .error .nullDeref ↔ lastAddress < addr) ∧
    (∀ e : Event, e.WellFormed → (∀ v ∈ e.tags, s.sets.Knows v) →
      ((∃ h t, e.run s = .ok (h, t)) ↔ ∀ a ∈ e.reads, a ≤ lastAddress) ∧
        (e.run s = .error .nullDeref ↔ ∃ a ∈ e.reads, lastAddress < a)) ∧
    (∀ p n, ((∃ b t, Api.argPointedIsTainted p n s = .ok (b, t)) ↔
        ∀ a ∈ Api.taintScan s p n, a ≤ lastAddress) ∧
      (Api.argPointedIsTainted p n s = .error .nullDeref ↔
        ∃ a ∈ Api.taintScan s p n, lastAddress < a)) := by
  have sound := run_sound run
  refine ⟨fun addr => ?_, fun e ok known => ?_, fun p n => ?_⟩
  · by_cases h : addr ≤ lastAddress
    · simp [TagDir.getb_of_le _ h, h, BitVec.not_lt]
    · simp [TagDir.getb_of_not_le _ h, BitVec.not_le.mp h]
  · have holds : ∀ v ∈ e.tags, s.Holds Set.univ v :=
      fun v hv => ⟨known v hv, fun _ => Set.subset_univ _⟩
    have flow : Flow e.writes Set.univ e.tags _ _ e.run :=
      Event.flow ok (Set.subset_univ _) subset_rfl
    obtain ⟨returns, faults⟩ := flow s ⟨sound, sound.within_univ⟩ holds
    refine nullDeref_iff (fun h => ?_) faults
    obtain ⟨r, t, out, -⟩ := returns h
    exact ⟨r, t, out⟩
  · obtain ⟨returns, faults⟩ := Api.argPointedIsTainted_run (s := s) (p := p) (n := n)
    refine nullDeref_iff (fun h => ?_) faults
    obtain ⟨b, out⟩ := returns h
    exact ⟨b, s, out⟩

def idleKernel : KernelView where
  fdname _ := []
  pathIsdir _ := false
  seekCur _ := 0
  seekEnd _ := 0
  statSize _ := none
  pread64 _ := 0
  sameStart _ _ := false

/-- A private mapping of a page of descriptor 3 that fails: the raw result is `-EINVAL`. -/
def failedMmap : SyscallCtx where
  arg i := if i = 1 then 4096 else if i = 3 then 2 else if i = 4 then 3 else 0
  ret := -22

theorem failedMmap_paints : (PostHook.mmap false).paints idleKernel {3} failedMmap =
    some ⟨-22, 0, 4096⟩ := rfl

/-- The post hook of a failed mapping reads the shadow at its error value, when the descriptor is
tracked; a read of memory that the program uses returns. -/
theorem shadow_read_returns_iff_mmap :
    (Event.hook idleKernel {3} failedMmap (.mmap false)).run Shadow.new = .error .nullDeref ∧
      ∃ h t, (Event.call (.getMemTag 0x7fff0000)).run Shadow.new = .ok (h, t) := by
  have reads := (shadow_read_returns_iff Run.nil).2.1
  constructor
  · refine (reads (.hook idleKernel {3} failedMmap (.mmap false)) trivial
      (fun _ h => absurd h (Set.notMem_empty _))).2.mpr ?_
    exact ⟨byteAt (-22) 0, ⟨_, failedMmap_paints, 0, by decide, rfl⟩, by decide⟩
  · refine (reads (.call (.getMemTag 0x7fff0000)) trivial
      (fun _ h => absurd h (Set.notMem_empty _))).1.mpr ?_
    rintro a rfl
    decide

/-- A read above the last user address does not yield the empty tag: `get_mem_tag` of the first
such address faults in the initial state. -/
theorem shadow_read_faults :
    ¬ ∀ (es : List Event) (s : Shadow), Run Step Shadow.new es s → ∀ addr,
      fileTagmapGetb s.tagDir addr ≠ .error .nullDeref ∧
        (lastAddress < addr → fileTagmapGetb s.tagDir addr = .ok clearedVal) := by
  intro claim
  refine (claim [] Shadow.new .nil 0x800000000000).1 ?_
  exact TagDir.getb_of_not_le _ (by decide)

end LibdftDr
