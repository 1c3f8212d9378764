import LibdftDr.Library.Actions

/-!
# Actions run twice

An action carries one relation of states to another if from states in the first it gives the same
value and states in the second, or the same fault; it respects a relation that it carries to
itself. When the relation says that two states agree except in some place, this is that the action
does not read that place.
-/
namespace Library.Action

universe u

variable {σ ε α β : Type u} {P Q R : σ → σ → Prop}

/-- The two outcomes are the same fault, or the same value in related states. -/
inductive SameOutcome (R : σ → σ → Prop) : Except ε (α × σ) → Except ε (α × σ) → Prop
  | ok {a s t} (related : R s t) : SameOutcome R (.ok (a, s)) (.ok (a, t))
  | error (e : ε) : SameOutcome R (.error e) (.error e)

def Carries (P Q : σ → σ → Prop) (f : Action σ ε α) : Prop :=
  ∀ s t, P s t → SameOutcome Q (f s) (f t)

def Respects (R : σ → σ → Prop) (f : Action σ ε α) : Prop := Carries R R f

/-- A relation that holds of any two states that are reached can be added. -/
theorem SameOutcome.and {x y : Except ε (α × σ)} (h : SameOutcome P x y)
    (also : ∀ a s t, x = .ok (a, s) → y = .ok (a, t) → Q s t) :
    SameOutcome (fun s t => P s t ∧ Q s t) x y := by
  cases h with
  | ok related => exact .ok ⟨related, also _ _ _ rfl rfl⟩
  | error e => exact .error e

theorem SameOutcome.mono {x y : Except ε (α × σ)} (h : SameOutcome P x y)
    (le : ∀ s t, P s t → Q s t) : SameOutcome Q x y := by
  cases h with
  | ok related => exact .ok (le _ _ related)
  | error e => exact .error e

namespace Carries

theorem bind {f : Action σ ε α} {g : α → Action σ ε β} (hf : Carries P Q f)
    (hg : ∀ a, Carries Q R (g a)) : Carries P R (f >>= g) := by
  intro s t related
  have first := hf s t related
  generalize hs : f s = x at first
  generalize ht : f t = y at first
  cases first with
  | ok related' =>
    rw [bind_of_ok hs, bind_of_ok ht]
    exact hg _ _ _ related'
  | error e =>
    rw [bind_of_error hs, bind_of_error ht]
    exact .error e

theorem weaken {f : Action σ ε α} (hf : Carries P Q f) (h : ∀ s t, Q s t → R s t) :
    Carries P R f :=
  fun s t related => (hf s t related).mono h

end Carries

namespace Respects

theorem pure (a : α) : Respects R (Pure.pure a : Action σ ε α) := fun _ _ h => .ok h

theorem fail (e : ε) : Respects R (Action.fail e : Action σ ε α) := fun _ _ _ => .error e

theorem bind {f : Action σ ε α} {g : α → Action σ ε β} (hf : Respects R f)
    (hg : ∀ a, Respects R (g a)) : Respects R (f >>= g) := Carries.bind hf hg

theorem ite {c : Prop} [Decidable c] {f g : Action σ ε α} (hf : c → Respects R f)
    (hg : ¬ c → Respects R g) : Respects R (if c then f else g) := by
  split_ifs with hc
  · exact hf hc
  · exact hg hc

theorem onlyIf {c : Prop} [Decidable c] {f : Action σ ε PUnit} (hf : Respects R f) :
    Respects R (onlyIf c f) :=
  ite (fun _ => hf) fun _ => pure _

theorem fold {n : ℕ} {body : ℕ → α → Action σ ε α} (step : ∀ i < n, ∀ a, Respects R (body i a))
    (a : α) : Respects R (fold n body a) := by
  induction n with
  | zero => exact pure a
  | succ n ih => exact (ih fun i hi => step i (by omega)).bind (step n (by omega))

theorem loop {n : ℕ} {body : ℕ → Action σ ε PUnit} (step : ∀ i < n, Respects R (body i)) :
    Respects R (loop n body) :=
  fold (fun i hi _ => step i hi) _

theorem each {γ : Type*} {l : List γ} {body : γ → α → Action σ ε α}
    (step : ∀ x ∈ l, ∀ a, Respects R (body x a)) (a : α) : Respects R (each l body a) := by
  induction l generalizing a with
  | nil => exact pure a
  | cons x xs ih => exact (step x List.mem_cons_self a).bind (ih fun y hy => step y (.tail x hy))

end Respects

/-- Elements for which the body does nothing can be left out. -/
theorem each_filter {γ : Type*} (p : γ → Bool) {body : γ → α → Action σ ε α} (l : List γ)
    (skip : ∀ x, p x = false → ∀ a, body x a = pure a) (a : α) :
    each (l.filter p) body a = each l body a := by
  induction l generalizing a with
  | nil => rfl
  | cons x l ih =>
    cases hx : p x with
    | true =>
      rw [List.filter_cons_of_pos hx, each, each]
      exact congrArg _ (funext ih)
    | false =>
      rw [List.filter_cons_of_neg (by simp [hx]), ih, each, skip x hx, pure_bind]

end Library.Action
