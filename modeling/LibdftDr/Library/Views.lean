import LibdftDr.Library.Actions

/-!
# Actions seen through a view

A view says what an abstract state and abstract values tell of a state and of the values that
it stores. What it tells of a value stays true in later states. `View.Does` is the triple that
goes with it: from a state that shows `m`, the action returns in one that shows `m'`.

A loop is `rounds` of abstract steps. Where each step keeps to places of its own,
`rounds_apply` and `rounds_frame` say what all of them do at once.
-/
namespace Library

universe u

/-- What an abstract state of type `μ` and an abstract value of type `ν` tell of a state and of
a value in it. -/
structure View (σ τ μ ν : Type u) where
  Shows : σ → μ → Prop
  Denotes : σ → τ → ν → Prop
  Le : σ → σ → Prop
  refl : ∀ s, Le s s
  trans : ∀ {s t u}, Le s t → Le t u → Le s u
  mono : ∀ {s t v w}, Le s t → Denotes s v w → Denotes t v w

namespace View

variable {σ τ μ ν ε α β : Type u}

/-- With values at hand that denote as `held` says, and from a state that shows `m`, `f` returns
in a state that shows `m'`, and the values of its result denote as `out` says. -/
def Does (V : View σ τ μ ν) (held : Set (τ × ν)) (m : μ) (out : α → Set (τ × ν)) (m' : μ)
    (f : Action σ ε α) : Prop :=
  ∀ s, V.Shows s m → (∀ p ∈ held, V.Denotes s p.1 p.2) →
    ∃ a t, f s = .ok (a, t) ∧ V.Shows t m' ∧ V.Le s t ∧ ∀ p ∈ out a, V.Denotes t p.1 p.2

namespace Does

variable {V : View σ τ μ ν} {held held' : Set (τ × ν)} {m m' m'' : μ} {out out' : α → Set (τ × ν)}
  {f : Action σ ε α}

theorem weaken (h : V.Does held m out m' f) (hheld : held ⊆ held') (hout : ∀ a, out' a ⊆ out a) :
    V.Does held' m out' m' f := by
  intro s shows denotes
  obtain ⟨a, t, run, shows', le, vals⟩ := h s shows fun p hp => denotes p (hheld hp)
  exact ⟨a, t, run, shows', le, fun p hp => vals p (hout a hp)⟩

theorem pure {a : α} (h : out a ⊆ held) : V.Does held m out m (Pure.pure a : Action σ ε α) :=
  fun s shows denotes => ⟨a, s, rfl, shows, V.refl s, fun p hp => denotes p (h hp)⟩

theorem bind {outb : β → Set (τ × ν)} {g : α → Action σ ε β} (hf : V.Does held m out m' f)
    (hg : ∀ a, V.Does (held ∪ out a) m' outb m'' (g a)) : V.Does held m outb m'' (f >>= g) := by
  intro s shows denotes
  obtain ⟨a, t, run, shows', le, vals⟩ := hf s shows denotes
  have denotes' : ∀ p ∈ held ∪ out a, V.Denotes t p.1 p.2 := by
    rintro p (hp | hp)
    · exact V.mono le (denotes p hp)
    · exact vals p hp
  obtain ⟨b, u, run', shows'', le', vals'⟩ := hg a t shows' denotes'
  exact ⟨b, u, (Action.bind_of_ok run).trans run', shows'', V.trans le le', vals'⟩

/-- The abstract states before the rounds and what the accumulator denotes are the invariant. -/
theorem fold {n : ℕ} {body : ℕ → α → Action σ ε α} (stage : ℕ → μ)
    (acc : ℕ → α → Set (τ × ν)) {a : α} (init : acc 0 a ⊆ held)
    (step : ∀ i < n, ∀ b,
      V.Does (held ∪ acc i b) (stage i) (acc (i + 1)) (stage (i + 1)) (body i b)) :
    V.Does held (stage 0) (acc n) (stage n) (Action.fold n body a) := by
  induction n with
  | zero => exact pure init
  | succ n ih => exact (ih fun i hi => step i (by omega)).bind (step n (by omega))

/-- An accumulator that goes through a list, with nothing else changed. What is at hand at the
start stays at hand. -/
theorem each {γ : Type*} {l : List γ} {body : γ → τ → Action σ ε τ} {step : ν → γ → ν} {a : τ}
    {w : ν} (init : (a, w) ∈ held)
    (follows : ∀ x ∈ l, ∀ held', held ⊆ held' → ∀ b v, (b, v) ∈ held' →
      V.Does held' m (fun t => {(t, step v x)}) m (body x b)) :
    V.Does held m (fun t => {(t, l.foldl step w)}) m (Action.each l body a) := by
  induction l generalizing held a w with
  | nil =>
    refine pure ?_
    rintro p rfl
    exact init
  | cons x xs ih =>
    refine (follows x List.mem_cons_self held subset_rfl a w init).bind fun b => ?_
    refine ih (.inr rfl) fun y hy held' sub => ?_
    exact follows y (List.mem_cons_of_mem x hy) held' (Set.subset_union_left.trans sub)

/-- Reading in turn, with nothing changed. -/
theorem gather {n : ℕ} {body : ℕ → Action σ ε τ} {val : ℕ → ν}
    (step : ∀ i < n, V.Does held m (fun t => {(t, val i)}) m (body i)) :
    V.Does held m (fun v => {p | ∃ i, ∃ h : i < n, p = (v[i], val i)}) m
      (Action.gather n body) := by
  induction n with
  | zero => exact pure (by simp)
  | succ n ih =>
    refine (ih fun i hi => step i (by omega)).bind fun v => ((step n (by omega)).weaken
      Set.subset_union_left fun _ => subset_rfl).bind fun a => pure ?_
    rintro p ⟨i, hi, rfl⟩
    by_cases last : i = n
    · subst last
      rw [Vector.getElem_push_last]
      exact .inr rfl
    · have before : i < n := by omega
      rw [Vector.getElem_push_lt before]
      exact .inl (.inr ⟨i, before, rfl⟩)

end Does

end View

/-! ## Rounds -/

section Rounds

variable {μ κ ν : Type*}

/-- The steps `0` to `n - 1` in turn. -/
def rounds (step : ℕ → μ → μ) : ℕ → μ → μ
  | 0, m => m
  | n + 1, m => step n (rounds step n m)

theorem rounds_of_id {step : ℕ → μ → μ} (same : ∀ i m, step i m = m) (n : ℕ) (m : μ) :
    rounds step n m = m := by
  induction n with
  | zero => rfl
  | succ n ih => rw [rounds, same, ih]

/-- `f` changes places of `W` only, and what it puts there is determined by the places of `R`. -/
structure LocalTo (W R : Set κ) (f : (κ → ν) → κ → ν) : Prop where
  frame : ∀ m, ∀ c ∉ W, f m c = m c
  reads : ∀ m m', (∀ c ∈ R, m' c = m c) → ∀ c ∈ W, f m' c = f m c

variable {step : ℕ → (κ → ν) → κ → ν} {W R : ℕ → Set κ} {n : ℕ} {m : κ → ν} {c : κ}

theorem rounds_frame (keeps : ∀ i < n, LocalTo (W i) (R i) (step i)) (hc : ∀ i < n, c ∉ W i) :
    rounds step n m c = m c := by
  induction n with
  | zero => rfl
  | succ n ih =>
    rw [rounds, (keeps n (by omega)).frame _ _ (hc n (by omega))]
    exact ih (fun i hi => keeps i (by omega)) fun i hi => hc i (by omega)

/-- If no step looks at or changes what an earlier one changed, each acts as on the start. -/
theorem rounds_apply (keeps : ∀ i < n, LocalTo (W i) (R i) (step i))
    (apart : ∀ i < n, ∀ j < i, ∀ c ∈ W j, c ∉ R i ∧ c ∉ W i) {i : ℕ} (hi : i < n) (hc : c ∈ W i) :
    rounds step n m c = step i m c := by
  induction n with
  | zero => omega
  | succ n ih =>
    have before : ∀ j < n, LocalTo (W j) (R j) (step j) := fun j hj => keeps j (by omega)
    rw [rounds]
    by_cases last : i = n
    · subst last
      refine (keeps i hi).reads _ _ (fun c hc => rounds_frame before fun j hj mem => ?_) c hc
      exact (apart i hi j hj c mem).1 hc
    · rw [(keeps n (by omega)).frame _ _ (apart n (by omega) i (by omega) c hc).2]
      exact ih before (fun j hj => apart j (by omega)) (by omega)

end Rounds

/-- A loop whose rounds follow abstract steps. -/
theorem View.Does.loop {σ τ μ ν ε : Type u} {V : View σ τ μ ν} {held : Set (τ × ν)} {n : ℕ}
    {body : ℕ → Action σ ε PUnit} {step : ℕ → μ → μ}
    (follows : ∀ i < n, ∀ m, V.Does held m (fun _ => ∅) (step i m) (body i)) (m : μ) :
    V.Does held m (fun _ => ∅) (rounds step n m) (Action.loop n body) := by
  induction n with
  | zero => exact Does.pure (Set.empty_subset _)
  | succ n ih =>
    refine (ih fun i hi => follows i (by omega)).bind fun _ => ?_
    rw [Set.union_empty]
    exact follows n (by omega) (rounds step n m)

end Library
