import LibdftDr.Sdft.Summaries
import LibdftDr.Sdft.Transfer

/-!
# The conservative default

Under the conservative policy every routine without a summary gets a default one that is meant
to put the union of what its arguments point to into RAX. The default has no length, and a
length that is not given counts as none at all.
-/
namespace LibdftDr
open Library Library.Action

/-! ## The default in the table -/

/-- The default that loading sets up. -/
def unionOfArgs : Summary where
  shape := .propPtr2val
  dst := ⟨.none, 0⟩
  src := [0, 1, 2, 3, 4, 5]
  len := ⟨.none, 0⟩
  args := []

theorem parseLine_conservativeDefault (raw : Text) (tb : SummaryTable) :
    (parseLine raw tb).conservativeDefault = tb.conservativeDefault := by
  have policy : ∀ toks, (parsePolicy toks tb).conservativeDefault = tb.conservativeDefault := by
    intro toks
    unfold parsePolicy
    split
    · split_ifs <;> rfl
    · rfl
  have alias_ : ∀ toks, (parseAlias toks tb).conservativeDefault = tb.conservativeDefault := by
    intro toks
    unfold parseAlias
    split <;> rfl
  have func : ∀ toks, (parseFunc toks tb).conservativeDefault = tb.conservativeDefault := by
    intro toks
    unfold parseFunc
    split
    · split <;> rfl
    · rfl
  simp only [parseLine]
  split_ifs
  · rfl
  · cases splitWs (strip raw) with
    | nil => rfl
    | cons kw rest =>
      dsimp only
      split_ifs
      · exact policy _
      · exact alias_ _
      · exact func _
      · rfl

theorem parseLines_conservativeDefault (content : Text) (tb : SummaryTable) :
    (parseLines content tb).conservativeDefault = tb.conservativeDefault := by
  unfold parseLines
  induction content.splitOn '\n' generalizing tb with
  | nil => rfl
  | cons line lines ih =>
    rw [List.foldl_cons, ih]
    exact parseLine_conservativeDefault line tb

/-- Whatever the file says, the default is the same. -/
theorem loadSummaries_default {content : Text} {tb : SummaryTable}
    (load : loadSummaries (some content) .new = (true, tb)) :
    tb.conservativeDefault.toSummary = unionOfArgs := by
  obtain ⟨-, rfl⟩ := Prod.mk.inj load
  rw [parseLines_conservativeDefault]
  rfl

theorem findAlias_eq_none {tb : SummaryTable} {name : Text} {rules : List AliasRule}
    (h : ∀ r ∈ rules, globMatch r.pattern name = true → tb.funcs r.canonical = none) :
    findAlias tb name rules = none := by
  induction rules with
  | nil => rfl
  | cons r rules ih =>
    have rest := ih fun q hq => h q (.tail r hq)
    have first := h r List.mem_cons_self
    unfold findAlias
    grind

/-- A routine that no line speaks of gets the default under the conservative policy. -/
theorem find_of_unknown {tb : SummaryTable} {name : Text} (policy : tb.policy = .conservative)
    (func : tb.funcs name = none)
    (aliases : ∀ r ∈ tb.aliases, globMatch r.pattern name = true → tb.funcs r.canonical = none) :
    tb.find name = some tb.conservativeDefault := by
  simp only [SummaryTable.find, func, findAlias_eq_none aliases, policy, if_true]

/-! ## What the default does -/

/-- A pointer-to-value summary without a length returns an untainted value. -/
theorem handlePropPtr2val_of_none {mem : AppMem} {av : ArgVals} {sum : Summary} (s : Shadow)
    (h : sum.len.kind = .none) :
    handlePropPtr2val mem av sum s = .ok (⟨⟩, s.returned clearedVal) := by
  have len : ∀ p, propLen mem sum av p = 0 := by
    intro p
    simp [propLen, resolveLen, h]
  rw [handlePropPtr2val, bind_of_ok (each_of_ok fun idx _ => ?_)]
  · rw [bind_of_ok (clobberCallerSaved_run s), raxSetAll_run]
    rfl
  · cases argVal av idx with
    | none => rfl
    | some p =>
      dsimp only
      split_ifs
      · rfl
      · rw [len]
        rfl

/-- After the routine every byte of RAX carries the labels of the byte that each argument points
to, if it is a pointer into user space. -/
def Shadow.ReturnsArgs (s : Shadow) (mem : AppMem) (av : ArgVals) (sum : Summary) : Prop :=
  ∃ t, dispatch mem av sum s = .ok (⟨⟩, t) ∧
    ∀ i, av i ≠ 0 → av i ≤ lastAddress → ∀ b < 8,
      s.labelsOf (.mem (av i)) ⊆ t.labelsOf (.reg DFT_REG_RAX b)

theorem returnsArgs_default_iff {s : Shadow} (sound : s.Sound) (mem : AppMem) (av : ArgVals) :
    s.ReturnsArgs mem av unionOfArgs ↔
      ∀ i, av i ≠ 0 → av i ≤ lastAddress → s.labelsOf (.mem (av i)) = ∅ := by
  have run : dispatch mem av unionOfArgs s = .ok (⟨⟩, s.returned clearedVal) :=
    handlePropPtr2val_of_none s rfl
  have rax : ∀ b < 8, (s.returned clearedVal).labelsOf (.reg DFT_REG_RAX b) = ∅ := by
    intro b hb
    have cell : (s.returned clearedVal).cell (.reg DFT_REG_RAX b) = clearedVal := by
      grind [Shadow.returned]
    rw [Shadow.labelsOf, cell]
    exact sound.live.setOf_clearedVal
  constructor
  · rintro ⟨t, run', covers⟩ i h0 user
    cases run.symm.trans run'
    have sub := covers i h0 user 0 (by decide)
    rw [rax 0 (by decide)] at sub
    exact Finset.subset_empty.mp sub
  · intro untainted
    refine ⟨_, run, fun i h0 user b hb => ?_⟩
    rw [untainted i h0 user]
    exact Finset.empty_subset _

/-- Under the conservative policy, a routine that no line speaks of returns what its arguments
point to if and only if that is untainted. -/
theorem conservative_returnsArgs_iff {content : Text} {tb : SummaryTable} {name : Text}
    {mem : AppMem} {av : ArgVals} {s : Shadow}
    (load : loadSummaries (some content) .new = (true, tb)) (policy : tb.policy = .conservative)
    (func : tb.funcs name = none)
    (aliases : ∀ r ∈ tb.aliases, globMatch r.pattern name = true → tb.funcs r.canonical = none)
    (sound : s.Sound) :
    (∃ e, tb.find name = some e ∧ s.ReturnsArgs mem av e.toSummary) ↔
      ∀ i, av i ≠ 0 → av i ≤ lastAddress → s.labelsOf (.mem (av i)) = ∅ := by
  rw [← returnsArgs_default_iff sound mem av, ← loadSummaries_default load,
    find_of_unknown policy func aliases]
  simp only [Option.some.injEq, exists_eq_left']

/-- A configuration of one line. -/
def conservativeConf : Text := "POLICY conservative".toList

def conservativeTable : SummaryTable := (loadSummaries (some conservativeConf) .new).2

theorem conservativeTable_load :
    loadSummaries (some conservativeConf) .new = (true, conservativeTable) := rfl

/-- No line of the file is about a function or an alias. -/
theorem conservativeTable_unknown (name : Text) : conservativeTable.policy = .conservative ∧
    conservativeTable.funcs name = none ∧
    ∀ r ∈ conservativeTable.aliases, globMatch r.pattern name = true →
      conservativeTable.funcs r.canonical = none := by
  have aliases : conservativeTable.aliases = [] := rfl
  refine ⟨rfl, rfl, ?_⟩
  simp [aliases]

/-- Six pointers to one tainted byte: nothing of it is returned. Without taint nothing is lost. -/
theorem conservative_returnsArgs_iff_tainted :
    (∃ e, conservativeTable.find ['f'] = some e ∧
      Shadow.new.ReturnsArgs noMem (fun _ => 0x1000) e.toSummary) ∧
    ¬ ∃ e, conservativeTable.find ['f'] = some e ∧
      (oneTainted 0x1000).ReturnsArgs noMem (fun _ => 0x1000) e.toSummary := by
  obtain ⟨policy, func, aliases⟩ := conservativeTable_unknown ['f']
  constructor
  · refine (conservative_returnsArgs_iff conservativeTable_load policy func aliases
      Shadow.new_sound).mpr fun i _ _ => ?_
    rw [Shadow.new_sound.labelsOf_eq_empty]
    exact TagDir.tagAt_new _
  · intro returns
    have untainted := (conservative_returnsArgs_iff conservativeTable_load policy func aliases
      (oneTainted_sound 0x1000)).mp returns
    exact oneTainted_labelsOf (by decide) (untainted ⟨0, by decide⟩ (by decide) (by decide))

/-- The default returns an untainted value for pointers to tainted bytes. -/
theorem conservative_drops_args :
    ¬ ∀ (content : Text) (tb : SummaryTable) (name : Text) (mem : AppMem) (av : ArgVals)
      (s : Shadow), loadSummaries (some content) .new = (true, tb) → tb.policy = .conservative →
      tb.funcs name = none →
      (∀ r ∈ tb.aliases, globMatch r.pattern name = true → tb.funcs r.canonical = none) →
      s.Sound → ∃ e, tb.find name = some e ∧ s.ReturnsArgs mem av e.toSummary := by
  intro claim
  obtain ⟨policy, func, aliases⟩ := conservativeTable_unknown ['f']
  obtain ⟨e, found, returns⟩ := claim _ _ _ noMem (fun _ => 0x1000) _ conservativeTable_load policy
    func aliases (oneTainted_sound 0x1000)
  rw [find_of_unknown policy func aliases] at found
  cases found
  rw [loadSummaries_default conservativeTable_load,
    returnsArgs_default_iff (oneTainted_sound 0x1000)] at returns
  exact oneTainted_labelsOf (by decide) (returns ⟨0, by decide⟩ (by decide) (by decide))

end LibdftDr
