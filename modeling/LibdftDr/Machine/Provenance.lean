import LibdftDr.Machine.Labels
import LibdftDr.Machine.Plans

/-!
# Where the labels of a byte come from

The plans of the events of a run, put together, are one plan, made without looking at the shadow.
A byte carries a label at the end exactly if one of the sources that this plan has for it brings
the label in (`run_labels_iff`): a byte that carried it at the start, a file offset or a label
that was painted, or a handle that a client passed. The labels of a run are independent of each
other: `run_superposition`.
-/
namespace LibdftDr
open Library Library.Action

/-- The data flow of a run. -/
def runPlan (es : List Event) : CellPlan := es.flatMap Event.plan

section Runs

variable {s t s₁ t₁ s₂ t₂ : Shadow} {e : Event} {es : List Event} {tb tf : SetTable} {c : Cell}
  {l : ℕ}

theorem runPlan_append (es es' : List Event) : runPlan (es ++ es') = runPlan es ++ runPlan es' :=
  List.flatMap_append

theorem Step.user (step : Step s e t) (sound : s.Sound) : ∀ a ∈ e.reads, a ≤ lastAddress := by
  have flow : Flow e.writes Set.univ e.tags _ _ e.run :=
    Event.flow step.wellFormed (Set.subset_univ _) subset_rfl
  have holds : ∀ v ∈ e.tags, s.Holds Set.univ v :=
    fun v hv => ⟨step.known v hv, fun _ => Set.subset_univ _⟩
  exact (flow.of_ok_of_holds sound sound.within_univ holds step.run).1

/-- A step evaluates its plan. The handles may be read in any table where they stand for the
same. -/
theorem Step.labelsOf_eq (step : Step s e t) (sound : s.Sound)
    (handles : ∀ v ∈ e.tags, tb.setOf v = s.sets.setOf v) (room : t.InIds) :
    t.labelsOf = e.plan.eval (Input.labels tb) s.labelsOf := by
  have enacts : Enacts {p | p.1 ∈ e.tags ∧ p.2 = tb.setOf p.1} (Input.labels tb) e.plan e.run :=
    Event.enacts step.wellFormed (step.user sound) fun v hv => ⟨hv, rfl⟩
  obtain ⟨_, u, run, shows, -⟩ := enacts s.labelsOf s sound.shows_labelsOf fun p hp =>
    ⟨step.known p.1 hp.1, fun _ => (handles p.1 hp.1).symm.trans hp.2.symm⟩
  cases run.symm.trans step.run
  exact funext fun c => (shows.2 c).2 room

/-- A run evaluates the plan of its events. A handle keeps its labels, so it can be read in a
later table `tf`. -/
theorem labelsOf_eq_eval (run : Run Step s es t) (sound : s.Sound) (grows : t.sets.Grows tf)
    (handles : ∀ e ∈ es, ∀ v ∈ e.tags, tb.setOf v = tf.setOf v) (room : t.InIds) :
    t.labelsOf = (runPlan es).eval (Input.labels tb) s.labelsOf := by
  induction run with
  | nil => rfl
  | @snoc es e t u run step ih =>
    have sound' : t.Sound :=
      run.invariant sound fun _ _ _ sound step => (step.conclusions sound).1
    have le : t.sets.Grows u.sets := (step.conclusions sound').2.2.grows
    have before : t.labelsOf = (runPlan es).eval (Input.labels tb) s.labelsOf :=
      ih (le.trans grows) (fun e he => handles e (List.mem_append_left _ he))
        (le.length_le.trans room)
    have last : runPlan [e] = e.plan := List.flatMap_singleton ..
    rw [runPlan_append, Plan.eval_append, last, ← before]
    refine step.labelsOf_eq sound' (fun v hv => ?_) room
    rw [handles e (List.mem_append_right _ (List.mem_singleton_self e)) v hv]
    exact (le.trans grows).setOf (step.known v hv)

/-- What is in a byte at the end: a label gets there exactly from the sources of the byte in the
plan of the events. -/
theorem run_labels_iff (run : Run Step s es t) (sound : s.Sound) (room : t.InIds) :
    l ∈ t.labelsOf c ↔
      (∃ d, .inl d ∈ (runPlan es).sources c ∧ l ∈ s.labelsOf d) ∨
      .inr (.label l) ∈ (runPlan es).sources c ∨
      ∃ v, .inr (.handle v) ∈ (runPlan es).sources c ∧ l ∈ t.sets.setOf v := by
  rw [congrFun (labelsOf_eq_eval run sound (.refl _) (fun _ _ _ _ => rfl) room) c,
    Plan.eval_eq_sup, Finset.mem_sup]
  constructor
  · rintro ⟨d | k | v, hx, hl⟩
    · exact .inl ⟨d, hx, hl⟩
    · obtain rfl := Finset.mem_singleton.mp hl
      exact .inr (.inl hx)
    · exact .inr (.inr ⟨v, hx, hl⟩)
  · rintro (⟨d, hx, hl⟩ | hx | ⟨v, hx, hl⟩)
    · exact ⟨_, hx, hl⟩
    · exact ⟨_, hx, Finset.mem_singleton_self l⟩
    · exact ⟨_, hx, hl⟩

/-- A source in the run brings the label, and the plan takes it to the byte. -/
def FlowsTo (es : List Event) (l : ℕ) (c : Cell) : Prop := .inr (.label l) ∈ (runPlan es).sources c

/-- Where no client passes handles, the labels of a byte are those that flow to it. -/
theorem mem_labelsOf_iff (run : Run Step Shadow.new es t) (given : ∀ e ∈ es, e.tags = ∅)
    (room : t.InIds) : l ∈ t.labelsOf c ↔ FlowsTo es l c := by
  -- no handle is read, so any table will do for them, also the one that knows none
  have none : ∀ e ∈ es, ∀ v ∈ e.tags, tagmapAlloc.setOf v = t.sets.setOf v := by
    intro e he v hv
    rw [given e he] at hv
    exact absurd hv (Set.notMem_empty v)
  have unknown : ∀ v, tagmapAlloc.setOf v = ∅ := by
    intro v
    by_cases known : tagmapAlloc.Knows v
    · obtain rfl : v = clearedVal := Tag.ext (BitVec.eq_of_toNat_eq (Nat.lt_one_iff.mp known))
      exact SetTable.tagmapAlloc_exact.setOf_clearedVal
    · rw [SetTable.setOf, List.getElem?_eq_none (not_lt.mp known)]
  have clean : ∀ d, Shadow.new.labelsOf d = ∅ := by
    intro d
    refine (Shadow.new_sound.labelsOf_eq_empty d).mpr ?_
    cases d with
    | reg r b => rfl
    | mem a => exact TagDir.tagAt_new a
  rw [labelsOf_eq_eval run Shadow.new_sound (.refl _) none room, Plan.eval_eq_sup, Finset.mem_sup]
  constructor
  · rintro ⟨d | k | v, hx, hl⟩
    · exact absurd hl (by simp [clean])
    · obtain rfl := Finset.mem_singleton.mp hl
      exact hx
    · exact absurd hl (by simp [Input.labels, unknown])
  · exact fun flows => ⟨_, flows, Finset.mem_singleton_self l⟩

/-- One byte is painted and loaded: AL carries the label. -/
theorem run_labels_iff_load : ∃ t, Run Step Shadow.new [paintByte 0, loadByte] t ∧
    0 ∈ t.labelsOf (.reg DFT_REG_RAX 0) := by
  obtain ⟨s, painted, h⟩ := painted_run 1 (by omega)
  obtain ⟨t, step, sets⟩ := loadByte_step s
  have room : t.InIds := by
    rw [Shadow.InIds, sets, h.length]
    decide
  exact ⟨t, painted.snoc step, (run_labels_iff (painted.snoc step) Shadow.new_sound room).mpr
    (.inr (.inl (by decide)))⟩

/-- Shifting a two-byte memory operand at address 0. -/
def shiftTwo : Event := .handler ⟨fun _ => none, 0⟩ 0 (.shiftM 0 2)

/-- Painting a byte puts its label there and leaves the other bytes. -/
theorem labelsOf_paintByte {k : ℕ} (step : Step s (paintByte k) t) (sound : s.Sound)
    (small : k < 2 ^ 32) (room : t.InIds) :
    t.labelsOf = Function.update s.labelsOf (.mem (BitVec.ofNat 64 k)) {k} := by
  have user : byteAt (BitVec.ofNat 64 k) 0 ≤ lastAddress :=
    (byteAt_zero _).symm ▸ ofNat_le_lastAddress small
  have plan : (paintByte k).plan = [[⟨.mem (byteAt (BitVec.ofNat 64 k) 0),
      [.inr (.label (BitVec.ofNat 32 k).toNat)]⟩]] := congrArg (fun b => [b]) (if_pos user)
  have label : (BitVec.ofNat 32 k).toNat = k := by
    rw [BitVec.toNat_ofNat, Nat.mod_eq_of_lt small]
  have none : ∀ v ∈ (paintByte k).tags, t.sets.setOf v = s.sets.setOf v := by
    simp [paintByte, Event.tags, Api.Call.tags]
  rw [step.labelsOf_eq sound none room, plan, label, byteAt_zero]
  simp [Plan.eval, Input.labels]

end Runs

end LibdftDr
