import Mathlib.Data.Set.Basic

/-!
# Actions on a state that can fault

An action reads and writes a state, handles values, and returns or faults. A `World` is what
a class of actions has in common: an invariant, an order of states that later states follow,
and the values that may be used in a state, which stay usable later.

`World.Triple` is total: under its guard the action returns, otherwise it faults, and which
of the two happens does not depend on the state. Bounded loops are `fold` and `gather`.
-/
namespace Library

universe u

abbrev Action (σ ε : Type u) := StateT σ (Except ε)

namespace Action

variable {σ ε α β : Type u}

/-- `body` for each index below `n`, in order, with an accumulator. -/
def fold (n : ℕ) (body : ℕ → α → Action σ ε α) (a : α) : Action σ ε α :=
  match n with
  | 0 => pure a
  | n + 1 => do
    let b ← fold n body a
    body n b

/-- `body` for each index below `n`, in order. -/
def loop (n : ℕ) (body : ℕ → Action σ ε PUnit) : Action σ ε PUnit :=
  fold n (fun i _ => body i) ⟨⟩

/-- `body` for each element, in order, with an accumulator. -/
def each {γ : Type*} (l : List γ) (body : γ → α → Action σ ε α) (a : α) : Action σ ε α :=
  match l with
  | [] => pure a
  | x :: xs => do
    let b ← body x a
    each xs body b

/-- The results of `body` for each index below `n`. -/
def gather : (n : ℕ) → (ℕ → Action σ ε α) → Action σ ε (Vector α n)
  | 0, _ => pure #v[]
  | n + 1, body => do
    let v ← gather n body
    let a ← body n
    pure (v.push a)

def fail (e : ε) : Action σ ε α := fun _ => .error e

/-- A conditional statement without an else branch. -/
def onlyIf (c : Prop) [Decidable c] (f : Action σ ε PUnit) : Action σ ε PUnit :=
  if c then f else pure ⟨⟩

theorem onlyIf_of {c : Prop} [Decidable c] (h : c) (f : Action σ ε PUnit) : onlyIf c f = f :=
  if_pos h

theorem onlyIf_of_not {c : Prop} [Decidable c] (h : ¬ c) (f : Action σ ε PUnit) :
    onlyIf c f = pure ⟨⟩ :=
  if_neg h

/-- The outcome of a sequence that returned. -/
theorem bind_eq_ok {f : Action σ ε α} {g : α → Action σ ε β} {s u : σ} {b : β} :
    (f >>= g) s = .ok (b, u) ↔ ∃ a t, f s = .ok (a, t) ∧ g a t = .ok (b, u) := by
  change (f s >>= fun r => g r.1 r.2) = .ok (b, u) ↔ _
  cases h : f s with
  | error e => simp [bind, Except.bind]
  | ok r =>
    obtain ⟨a, t⟩ := r
    simp [bind, Except.bind, and_assoc]

theorem bind_of_ok {f : Action σ ε α} {g : α → Action σ ε β} {s t : σ} {a : α}
    (h : f s = .ok (a, t)) : (f >>= g) s = g a t := by
  change (f s >>= fun r => g r.1 r.2) = _
  rw [h]; rfl

/-- A loop whose body changes nothing returns what it was given. -/
theorem each_of_ok {γ : Type*} {l : List γ} {body : γ → α → Action σ ε α} {a : α} {s : σ}
    (step : ∀ x ∈ l, body x a s = .ok (a, s)) : each l body a s = .ok (a, s) := by
  induction l with
  | nil => rfl
  | cons x l ih =>
    rw [each, bind_of_ok (step x List.mem_cons_self)]
    exact ih fun y hy => step y (.tail x hy)

theorem bind_of_error {f : Action σ ε α} {g : α → Action σ ε β} {s : σ} {e : ε}
    (h : f s = .error e) : (f >>= g) s = .error e := by
  change (f s >>= fun r => g r.1 r.2) = _
  rw [h]; rfl

theorem map_of_ok {f : Action σ ε α} {g : α → β} {s t : σ} {a : α} (h : f s = .ok (a, t)) :
    (g <$> f) s = .ok (g a, t) := by
  rw [map_eq_pure_bind, bind_of_ok h]
  rfl

/-- The last round of a loop starts where the others ended. -/
theorem loop_succ_of_ok {n : ℕ} {body : ℕ → Action σ ε PUnit} {s t : σ} {u : PUnit}
    (h : loop n body s = .ok (u, t)) : loop (n + 1) body s = body n t :=
  bind_of_ok h

theorem bind_congr_left {f f' : Action σ ε α} {g : α → Action σ ε β} {s : σ} (h : f s = f' s) :
    (f >>= g) s = (f' >>= g) s := by
  change (f s >>= fun r => g r.1 r.2) = (f' s >>= fun r => g r.1 r.2)
  rw [h]

theorem fold_congr {n : ℕ} {body body' : ℕ → α → Action σ ε α} (same : ∀ i < n, body i = body' i)
    (a : α) : fold n body a = fold n body' a := by
  induction n with
  | zero => rfl
  | succ n ih => rw [fold, fold, ih fun i hi => same i (by omega), same n (by omega)]

theorem loop_congr {n : ℕ} {body body' : ℕ → Action σ ε PUnit} (same : ∀ i < n, body i = body' i) :
    loop n body = loop n body' :=
  fold_congr (fun i hi => funext fun _ => same i hi) _

theorem each_congr {γ : Type*} {l : List γ} {body body' : γ → α → Action σ ε α}
    (same : ∀ x ∈ l, body x = body' x) (a : α) : each l body a = each l body' a := by
  induction l generalizing a with
  | nil => rfl
  | cons x l ih =>
    rw [each, each, same x List.mem_cons_self]
    exact congrArg _ (funext fun b => ih (fun y hy => same y (.tail x hy)) b)

/-- Reading each of the first `n` values of a state that the reads do not change. -/
theorem gather_of_pure {body : ℕ → Action σ ε α} {s : σ} (n : ℕ) (value : ℕ → α)
    (h : ∀ i < n, body i s = .ok (value i, s)) :
    gather n body s = .ok (Vector.ofFn fun i : Fin n => value i, s) := by
  induction n with
  | zero => rfl
  | succ n ih =>
    have first := ih fun i hi => h i (by omega)
    rw [gather, bind_of_ok first, bind_of_ok (h n (by omega)), Vector.ofFn_succ]
    rfl

/-- What holds before the action holds after it, if it returns. -/
def Keeps (P : σ → Prop) (f : Action σ ε α) : Prop := ∀ s a t, P s → f s = .ok (a, t) → P t

namespace Keeps

variable {P : σ → Prop}

theorem pure (a : α) : Keeps P (Pure.pure a : Action σ ε α) := by
  intro s b t h run
  cases run
  exact h

theorem fail (e : ε) : Keeps P (Action.fail e : Action σ ε α) := by
  intro s a t h run
  cases run

theorem bind {f : Action σ ε α} {g : α → Action σ ε β} (hf : Keeps P f)
    (hg : ∀ a, Keeps P (g a)) : Keeps P (f >>= g) := by
  intro s b u h run
  obtain ⟨a, t, first, rest⟩ := bind_eq_ok.mp run
  exact hg a t b u (hf s a t h first) rest

theorem onlyIf {c : Prop} [Decidable c] {f : Action σ ε PUnit} (hf : Keeps P f) :
    Keeps P (onlyIf c f) := by
  unfold Action.onlyIf
  split_ifs
  · exact hf
  · exact pure _

theorem fold {n : ℕ} {body : ℕ → α → Action σ ε α} (step : ∀ i < n, ∀ a, Keeps P (body i a))
    (a : α) : Keeps P (fold n body a) := by
  induction n with
  | zero => exact pure a
  | succ n ih => exact (ih fun i hi => step i (by omega)).bind (step n (by omega))

theorem loop {n : ℕ} {body : ℕ → Action σ ε PUnit} (step : ∀ i < n, Keeps P (body i)) :
    Keeps P (loop n body) :=
  fold (fun i hi _ => step i hi) _

theorem each {γ : Type*} {l : List γ} {body : γ → α → Action σ ε α}
    (step : ∀ x ∈ l, ∀ a, Keeps P (body x a)) (a : α) : Keeps P (each l body a) := by
  induction l generalizing a with
  | nil => exact pure a
  | cons x xs ih => exact (step x List.mem_cons_self a).bind (ih fun y hy => step y (.tail x hy))

end Keeps

/-- Whatever the action returns satisfies `Q`. -/
def Yields (Q : α → Prop) (f : Action σ ε α) : Prop := ∀ s a t, f s = .ok (a, t) → Q a

namespace Yields

variable {Q : α → Prop}

theorem pure {a : α} (h : Q a) : Yields Q (Pure.pure a : Action σ ε α) := by
  intro s b t run
  cases run
  exact h

theorem fail (e : ε) : Yields Q (Action.fail e : Action σ ε α) := by
  intro s a t run
  cases run

theorem any (f : Action σ ε α) : Yields (fun _ => True) f := fun _ _ _ _ => trivial

theorem bind {f : Action σ ε α} {g : α → Action σ ε β} {R : β → Prop} (hf : Yields Q f)
    (hg : ∀ a, Q a → Yields R (g a)) : Yields R (f >>= g) := by
  intro s b u run
  obtain ⟨a, t, first, rest⟩ := bind_eq_ok.mp run
  exact hg a (hf s a t first) t b u rest

theorem ite {c : Prop} [Decidable c] {f g : Action σ ε α} (hf : Yields Q f) (hg : Yields Q g) :
    Yields Q (if c then f else g) := by
  split_ifs
  · exact hf
  · exact hg

end Yields

end Action

/-- What the actions of a class keep, how states follow each other, and which values may be
used where. -/
structure World (σ τ : Type u) where
  Ok : σ → Prop
  Le : σ → σ → Prop
  Holds : σ → τ → Prop
  refl : ∀ s, Le s s
  trans : ∀ {s t u}, Le s t → Le t u → Le s u
  mono : ∀ {s t v}, Le s t → Holds s v → Holds t v

namespace World

variable {σ τ ε α β : Type u}

/-- With the values in `held` at hand, `f` returns exactly when `guard` holds; it then keeps
the world, and the values in `out` of its result may be used. Otherwise it faults with `e`. -/
def Triple (W : World σ τ) (e : ε) (held : Set τ) (guard : Prop) (out : α → Set τ)
    (f : Action σ ε α) : Prop :=
  ∀ s, W.Ok s → (∀ v ∈ held, W.Holds s v) →
    (guard → ∃ a t, f s = .ok (a, t) ∧ W.Ok t ∧ W.Le s t ∧ ∀ v ∈ out a, W.Holds t v) ∧
    (¬ guard → f s = .error e)

namespace Triple

variable {W : World σ τ} {e : ε} {held held' : Set τ} {guard guard' : Prop} {out out' : α → Set τ}
  {f : Action σ ε α}

theorem weaken (h : W.Triple e held guard out f) (hheld : held ⊆ held') (hguard : guard' ↔ guard)
    (hout : ∀ a, out' a ⊆ out a) : W.Triple e held' guard' out' f := by
  intro s ok holds
  obtain ⟨returns, faults⟩ := h s ok fun v hv => holds v (hheld hv)
  refine ⟨fun hg => ?_, fun hg => faults fun g => hg (hguard.mpr g)⟩
  obtain ⟨a, t, run, ok', le, vals⟩ := returns (hguard.mp hg)
  exact ⟨a, t, run, ok', le, fun v hv => vals v (hout a hv)⟩

theorem guard_iff (h : W.Triple e held guard out f) (hguard : guard' ↔ guard) :
    W.Triple e held guard' out f :=
  h.weaken subset_rfl hguard fun _ => subset_rfl

theorem drop (h : W.Triple e held guard out f) : W.Triple e held guard (fun _ => ∅) f :=
  h.weaken subset_rfl Iff.rfl fun _ => Set.empty_subset _

theorem pure {a : α} (h : out a ⊆ held) :
    W.Triple e held True out (Pure.pure a : Action σ ε α) := by
  intro s ok holds
  refine ⟨fun _ => ⟨a, s, rfl, ok, W.refl s, fun v hv => holds v (h hv)⟩, fun hn => ?_⟩
  exact absurd trivial hn

theorem fail : W.Triple e held False out (Action.fail e : Action σ ε α) :=
  fun _ _ _ => ⟨False.elim, fun _ => rfl⟩

theorem bind {outb : β → Set τ} {g : α → Action σ ε β} (hf : W.Triple e held guard out f)
    (hg : ∀ a, W.Triple e (held ∪ out a) guard' outb (g a)) :
    W.Triple e held (guard ∧ guard') outb (f >>= g) := by
  intro s ok holds
  obtain ⟨returns, faults⟩ := hf s ok holds
  by_cases hgd : guard
  · obtain ⟨a, t, run, ok', le, vals⟩ := returns hgd
    have holds' : ∀ v ∈ held ∪ out a, W.Holds t v := by
      rintro v (hv | hv)
      · exact W.mono le (holds v hv)
      · exact vals v hv
    obtain ⟨returns', faults'⟩ := hg a t ok' holds'
    rw [Action.bind_of_ok run]
    refine ⟨fun both => ?_, fun not => faults' fun g' => not ⟨hgd, g'⟩⟩
    obtain ⟨b, u, run', ok'', le', vals'⟩ := returns' both.2
    exact ⟨b, u, run', ok'', W.trans le le', vals'⟩
  · exact ⟨fun both => absurd both.1 hgd, fun _ => Action.bind_of_error (faults hgd)⟩

theorem ite {c : Prop} [Decidable c] {g : Action σ ε α} (hf : c → W.Triple e held guard out f)
    (hg : ¬ c → W.Triple e held guard' out g) :
    W.Triple e held (if c then guard else guard') out (if c then f else g) := by
  by_cases hc : c
  · simpa only [hc, if_true] using hf hc
  · simpa only [hc, if_false] using hg hc

theorem onlyIf {c : Prop} [Decidable c] {f : Action σ ε PUnit}
    (hf : c → W.Triple e held guard (fun _ => ∅) f) :
    W.Triple e held (c → guard) (fun _ => ∅) (Action.onlyIf c f) := by
  refine guard_iff (ite hf fun _ => Triple.pure (Set.empty_subset _)) ?_
  split_ifs with h <;> simp [h]

theorem skipIf {c : Prop} [Decidable c] {f : Action σ ε PUnit}
    (hf : ¬ c → W.Triple e held guard (fun _ => ∅) f) :
    W.Triple e held (¬ c → guard) (fun _ => ∅) (if c then Pure.pure ⟨⟩ else f) := by
  refine guard_iff (ite (fun _ => Triple.pure (Set.empty_subset _)) hf) ?_
  split_ifs with h <;> simp [h]

/-- The invariant of the loop is that the values of the accumulator may be used. -/
theorem fold {n : ℕ} {body : ℕ → α → Action σ ε α} {G : ℕ → Prop} {a : α} (init : out a ⊆ held)
    (step : ∀ i < n, ∀ b, W.Triple e (held ∪ out b) (G i) out (body i b)) :
    W.Triple e held (∀ i < n, G i) out (Action.fold n body a) := by
  induction n with
  | zero => exact (Triple.pure init).guard_iff (by simp)
  | succ n ih =>
    have before := ih fun i hi => step i (by omega)
    exact (before.bind (step n (by omega))).guard_iff Nat.forall_lt_succ_right

theorem loop {n : ℕ} {body : ℕ → Action σ ε PUnit} {G : ℕ → Prop}
    (step : ∀ i < n, W.Triple e held (G i) (fun _ => ∅) (body i)) :
    W.Triple e held (∀ i < n, G i) (fun _ => ∅) (Action.loop n body) :=
  fold (Set.empty_subset _) fun i hi _ => by simpa only [Set.union_empty] using step i hi

theorem loop_of_true {n : ℕ} {body : ℕ → Action σ ε PUnit}
    (step : ∀ i < n, W.Triple e held True (fun _ => ∅) (body i)) :
    W.Triple e held True (fun _ => ∅) (Action.loop n body) :=
  (loop step).guard_iff (by simp)

theorem each {γ : Type*} {l : List γ} {body : γ → α → Action σ ε α} {G : γ → Prop} {a : α}
    (init : out a ⊆ held) (step : ∀ x ∈ l, ∀ b, W.Triple e (held ∪ out b) (G x) out (body x b)) :
    W.Triple e held (∀ x ∈ l, G x) out (Action.each l body a) := by
  induction l generalizing held a with
  | nil => exact (Triple.pure init).guard_iff (by simp)
  | cons x xs ih =>
    have first := (step x List.mem_cons_self a).weaken (Set.union_subset subset_rfl init) Iff.rfl
      fun _ => subset_rfl
    refine (first.bind fun b => ih Set.subset_union_right fun y hy c => ?_).guard_iff (by simp)
    refine (step y (.tail x hy) c).weaken ?_ Iff.rfl fun _ => subset_rfl
    exact Set.union_subset_union_left _ Set.subset_union_left

theorem each_of_true {γ : Type*} {l : List γ} {body : γ → PUnit → Action σ ε PUnit}
    (step : ∀ x ∈ l, W.Triple e held True (fun _ => ∅) (body x ⟨⟩)) :
    W.Triple e held True (fun _ => ∅) (Action.each l body ⟨⟩) := by
  have all : W.Triple e held (∀ x ∈ l, True) (fun _ => ∅) (Action.each l body ⟨⟩) :=
    each (Set.empty_subset _) fun x hx _ => by simpa only [Set.union_empty] using step x hx
  exact all.guard_iff (by simp)

theorem gather {n : ℕ} {body : ℕ → Action σ ε α} {G : ℕ → Prop}
    (step : ∀ i < n, W.Triple e held (G i) out (body i)) :
    W.Triple e held (∀ i < n, G i) (fun v => {t | ∃ a ∈ v, t ∈ out a}) (Action.gather n body) := by
  induction n with
  | zero => exact (Triple.pure (by simp)).guard_iff (by simp)
  | succ n ih =>
    have before := ih fun i hi => step i (by omega)
    refine (before.bind fun v => ((step n (by omega)).weaken Set.subset_union_left Iff.rfl
      fun _ => subset_rfl).bind fun a => Triple.pure ?_).guard_iff ?_
    · rintro t ⟨b, hb, ht⟩
      rw [Vector.mem_push] at hb
      obtain hb | rfl := hb
      · exact .inl (.inr ⟨b, hb, ht⟩)
      · exact .inr ht
    · simp only [and_true]
      exact Nat.forall_lt_succ_right

end Triple

end World

end Library
