import Mathlib.Data.List.Basic

/-!
# Runs of a transition relation

`Run Step s as t`: from `s`, the events `as` lead to `t`. What holds at the start and is
kept by every step holds at the end (`invariant`); a step that satisfies a side condition
is a step of the restricted relation `Where`, so an invariant that needs the condition is
one of runs all of whose steps meet it. Where the events determine the steps, they determine
the run (`unique`).
-/
namespace Library

variable {σ ε : Type*}

inductive Run (Step : σ → ε → σ → Prop) (s : σ) : List ε → σ → Prop
  | nil : Run Step s [] s
  | snoc {as a t u} : Run Step s as t → Step t a u → Run Step s (as ++ [a]) u

/-- The steps of `Step` that meet a condition on the state before and the event. -/
def Where (Step : σ → ε → σ → Prop) (good : σ → ε → Prop) (s : σ) (a : ε) (t : σ) : Prop :=
  Step s a t ∧ good s a

namespace Run

variable {Step : σ → ε → σ → Prop} {s t u : σ} {as bs : List ε}

theorem invariant {I : σ → Prop} (init : I s) (step : ∀ t a u, I t → Step t a u → I u)
    (run : Run Step s as t) : I t := by
  induction run with
  | nil => exact init
  | snoc _ h ih => exact step _ _ _ ih h

theorem eq_of_nil (run : Run Step s [] t) : t = s := by
  generalize h : ([] : List ε) = as at run
  cases run with
  | nil => rfl
  | snoc => simp at h

theorem append (first : Run Step s as t) (second : Run Step t bs u) : Run Step s (as ++ bs) u := by
  induction second with
  | nil => simpa using first
  | snoc _ h ih => rw [← List.append_assoc]; exact ih.snoc h

theorem cons {a : ε} (h : Step s a t) (run : Run Step t as u) : Run Step s (a :: as) u :=
  append (.snoc .nil h) run

theorem exists_of_concat {a : ε} (run : Run Step s (as ++ [a]) u) :
    ∃ t, Run Step s as t ∧ Step t a u := by
  generalize h : as ++ [a] = bs at run
  cases run with
  | nil => simp at h
  | snoc run step =>
    obtain ⟨rfl, last⟩ := List.append_inj' h rfl
    obtain rfl := List.singleton_inj.mp last
    exact ⟨_, run, step⟩

/-- If the events determine the steps, they determine the run. -/
theorem unique (determined : ∀ s a t u, Step s a t → Step s a u → t = u) (run : Run Step s as t)
    (run' : Run Step s as u) : t = u := by
  induction run generalizing u with
  | nil => exact run'.eq_of_nil.symm
  | snoc _ step ih =>
    obtain ⟨v, run', step'⟩ := run'.exists_of_concat
    obtain rfl := ih run'
    exact determined _ _ _ _ step step'

/-- Forgetting the side condition. -/
theorem forget {good : σ → ε → Prop} (run : Run (Where Step good) s as t) : Run Step s as t := by
  induction run with
  | nil => exact .nil
  | snoc _ h ih => exact ih.snoc h.1

end Run

end Library
