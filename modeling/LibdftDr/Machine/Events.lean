import LibdftDr.Api.Tags
import LibdftDr.Library.Runs
import LibdftDr.Sdft.Hook
import LibdftDr.Syscall.Hooks

/-!
# Runs of the engine

A run interleaves the clean calls of the instrumentation, summaries, post-syscall hooks and
calls of the public interface, in any order. An `Event` is one of these with its arguments;
`Event.flow` is the step lemma for all of them, and every state of a run is sound.
-/
namespace LibdftDr
open Library

inductive Event where
  | handler (app : AppView) (limitOffset : INT32) (c : CleanCall)
  | summary (mem : AppMem) (av : ArgVals) (sum : Summary)
  | hook (os : KernelView) (fdset : Finset INT32) (ctx : SyscallCtx) (h : PostHook)
  | call (c : Api.Call)

namespace Event

/-- Only a hook can end the process. -/
def run : Event → Engine HookEnd
  | .handler app limitOffset c => do let _ ← c.run app limitOffset; pure .returned
  | .summary mem av sum => do dispatch mem av sum; pure .returned
  | .hook os fdset ctx h => h.run os fdset ctx
  | .call c => do let _ ← c.run; pure .returned

/-- Spans lie in the register file, and the source index that a summary does not check is that of
an argument. -/
def WellFormed : Event → Prop
  | .handler _ _ c => c.InBounds
  | .summary _ _ sum => sum.FirstOk
  | .hook .. | .call _ => True

def writes : Event → Set Cell
  | .handler _ _ c => c.writes
  | .summary mem av sum => sum.writes mem av
  | .hook _ _ ctx h => h.buffer ctx
  | .call c => c.writes

def reads : Event → Set ADDRINT
  | .handler app _ c => c.reads app
  | .summary mem av sum => sum.reads mem av
  | .hook os fdset ctx h => h.reads os fdset ctx
  | .call c => c.reads

/-- The handles that a client passes in. -/
def tags : Event → Set Tag
  | .call c => c.tags
  | _ => ∅

/-- The labels that are passed in. -/
def labels : Event → Set ℕ
  | .hook os fdset ctx h => h.labels os fdset ctx
  | .call c => c.labels
  | _ => ∅

variable {L : Set ℕ} {held : Set Tag}

/-- What every event does: it changes its own cells, brings in what it is given, and returns
exactly when every address it looks up is in range. -/
theorem flow {e : Event} (ok : e.WellFormed) (hL : e.labels ⊆ L) (ht : e.tags ⊆ held) :
    Flow e.writes L held (∀ a ∈ e.reads, a ≤ lastAddress) (fun _ => ∅) e.run := by
  cases e with
  | handler app limitOffset c =>
    exact ((CleanCall.flow ok).bind fun _ => skip_flow _).guard_iff (by simp [reads])
  | summary mem av sum =>
    exact ((dispatch_flow ok).bind fun _ => skip_flow _).guard_iff (by simp [reads])
  | hook os fdset ctx h => exact PostHook.flow hL
  | call c =>
    exact ((Api.Call.flow hL ht).bind fun _ => skip_flow _).guard_iff (by simp [reads])

end Event

/-- An event that returns. The handles passed in are ids that the table has given out. -/
structure Step (s : Shadow) (e : Event) (t : Shadow) : Prop where
  wellFormed : e.WellFormed
  known : ∀ v ∈ e.tags, s.sets.Knows v
  run : e.run s = .ok (.returned, t)

section Runs

variable {s t : Shadow} {e : Event} {es : List Event}

/-- The labels of the handles that are passed in. -/
def Event.tagLabels (s : Shadow) (e : Event) : Set ℕ := {l | ∃ v ∈ e.tags, l ∈ s.sets.setOf v}

/-- With the labels held before, those passed in and those of the handles at hand, no other
label gets into the state. -/
theorem Step.conclusions (step : Step s e t) (sound : s.Sound) :
    t.Sound ∧ t.Within (s.labels ∪ (e.labels ∪ e.tagLabels s)) ∧ Shadow.Le e.writes s t := by
  have within : s.Within (s.labels ∪ (e.labels ∪ e.tagLabels s)) := fun c =>
    ⟨sound.known c, fun _ l hl => .inl ⟨c, hl⟩⟩
  have holds : ∀ v ∈ e.tags, s.Holds (s.labels ∪ (e.labels ∪ e.tagLabels s)) v := fun v hv =>
    ⟨step.known v hv, fun _ l hl => .inr (.inr ⟨v, hv, hl⟩)⟩
  have flow : Flow e.writes (s.labels ∪ (e.labels ∪ e.tagLabels s)) e.tags _ _ e.run :=
    Event.flow step.wellFormed (fun l hl => .inr (.inl hl)) subset_rfl
  exact (flow.of_ok_of_holds sound within holds step.run).2

/-- The state that an event leaves where it returns. -/
def Event.after (e : Event) (s : Shadow) : Shadow :=
  match e.run s with
  | .ok (_, t) => t
  | .error _ => s

theorem Event.step_after (ok : e.WellFormed) (given : e.tags = ∅)
    (returns : (e.run s).map Prod.fst = .ok .returned) : Step s e (e.after s) := by
  refine ⟨ok, fun v hv => absurd (given ▸ hv) (Set.notMem_empty v), ?_⟩
  unfold Event.after
  cases run : e.run s with
  | error fault =>
    rw [run] at returns
    cases returns
  | ok r =>
    rw [run] at returns
    exact congrArg Except.ok (Prod.ext (Except.ok.inj returns) rfl)

theorem run_sound (run : Run Step Shadow.new es s) : s.Sound :=
  run.invariant Shadow.new_sound fun _ _ _ sound step => (step.conclusions sound).1

end Runs

end LibdftDr
