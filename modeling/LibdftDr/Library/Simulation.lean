import Mathlib.Data.List.Forall2

/-!
# Two programs in step

Two computations are matched by a relation if both give the same fault or both give a result and
the results are related. Sequencing keeps this. Lists related entry by entry stay so when entries
are replaced by related ones.
-/
namespace Library

universe u v

variable {ε : Type*} {α γ : Type u} {β δ : Type v}

inductive Matched (R : α → β → Prop) : Except ε α → Except ε β → Prop
  | ok {a b} (related : R a b) : Matched R (.ok a) (.ok b)
  | error (e : ε) : Matched R (.error e) (.error e)

namespace Matched

variable {R : α → β → Prop} {S : γ → δ → Prop} {x : Except ε α} {y : Except ε β}

theorem bind {f : α → Except ε γ} {g : β → Except ε δ} (first : Matched R x y)
    (rest : ∀ a b, R a b → Matched S (f a) (g b)) : Matched S (x >>= f) (y >>= g) := by
  cases first with
  | ok related => exact rest _ _ related
  | error e => exact .error e

/-- A run of the second that gives a result is matched by one of the first. -/
theorem exists_ok {b : β} (h : Matched R x (.ok b)) : ∃ a, x = .ok a ∧ R a b := by
  cases h with
  | ok related => exact ⟨_, rfl, related⟩

end Matched

section Entries

variable {R : α → β → Prop} {xs : List α} {ys : List β}

/-- Lists related entry by entry have entries at the same positions. -/
theorem forall₂_getElem? (h : List.Forall₂ R xs ys) (i : ℕ) :
    Option.Rel R xs[i]? ys[i]? := by
  induction h generalizing i with
  | nil => exact .none
  | cons head _ ih =>
    cases i with
    | zero => exact .some head
    | succ i => exact ih i

/-- An entry is replaced by one that is still related. -/
theorem forall₂_set (h : List.Forall₂ R xs ys) {i : ℕ} {x : α} {y : β} (at_i : ys[i]? = some y)
    (related : R x y) : List.Forall₂ R (xs.set i x) ys := by
  induction h generalizing i with
  | nil => exact .nil
  | cons head tail ih =>
    cases i with
    | zero => exact .cons (Option.some.inj at_i ▸ related) tail
    | succ i => exact .cons head (ih at_i)

end Entries

end Library
