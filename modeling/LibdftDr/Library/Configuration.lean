import Mathlib.Data.List.Basic

/-!
# Configuration texts

A line is read as its tokens, the maximal runs without a separator (`tokens`). A list of
settings is read from the first to the last: what a setting says replaces what stood before
(`lastOf`), so only the order of the settings that speak of the same thing counts.
-/
namespace Library

variable {α δ σ τ : Type*}

/-! ## Tokens -/

section Tokens

variable {p : α → Bool} {s t : List α} {c : α}

def tokens (p : α → Bool) (s : List α) : List (List α) := (s.splitOnP p).filter (· ≠ [])

@[simp] theorem tokens_nil : tokens p ([] : List α) = [] := by
  simp [tokens]

theorem tokens_append_cons (hc : p c = true) (a b : List α) :
    tokens p (a ++ c :: b) = tokens p a ++ tokens p b := by
  rw [tokens, List.splitOnP_append_cons a b hc, List.filter_append]
  rfl

theorem tokens_cons (hc : p c = true) (s : List α) : tokens p (c :: s) = tokens p s :=
  tokens_append_cons hc [] s

theorem ne_nil_of_mem_tokens (h : t ∈ tokens p s) : t ≠ [] := by
  simpa using (List.mem_filter.mp h).2

/-- Separators in front are skipped. -/
theorem tokens_dropWhile (s : List α) : tokens p (s.dropWhile p) = tokens p s := by
  induction s with
  | nil => rfl
  | cons c s ih =>
    by_cases hc : p c = true
    · rw [List.dropWhile_cons_of_pos hc, ih, tokens_cons hc]
    · rw [List.dropWhile_cons_of_neg hc]

/-- At least one separator ends what is before. -/
theorem tokens_append {ws : List α} (ne : ws ≠ []) (sep : ∀ c ∈ ws, p c = true) (a b : List α) :
    tokens p (a ++ ws ++ b) = tokens p a ++ tokens p b := by
  induction ws generalizing a with
  | nil => exact absurd rfl ne
  | cons c ws ih =>
    have hc := sep c List.mem_cons_self
    by_cases last : ws = []
    · rw [last, List.append_assoc]
      exact tokens_append_cons hc a b
    · have rest := ih last (fun d hd => sep d (List.mem_cons_of_mem c hd)) []
      rw [List.append_assoc, List.cons_append, tokens_append_cons hc]
      rw [List.nil_append] at rest
      rw [rest, tokens_nil, List.nil_append]

/-- A text that begins with no separator begins with a token. -/
theorem tokens_cons_of_not (hc : p c = false) (s : List α) :
    ∃ w ws, tokens p (c :: s) = (c :: w) :: ws := by
  obtain ⟨w, ws, split⟩ := List.exists_cons_of_ne_nil (List.splitOnP_ne_nil p s)
  refine ⟨w, ws.filter (· ≠ []), ?_⟩
  rw [tokens, List.splitOnP_cons_eq_if_modifyHead, hc, split]
  simp

end Tokens

/-! ## The last setting wins -/

/-- What the last setting that speaks of the matter says. -/
def lastOf (speaks : δ → Option σ) (ds : List δ) : Option σ := (ds.filterMap speaks).getLast?

variable {speaks : δ → Option σ} {ds : List δ}

@[simp] theorem lastOf_nil : lastOf speaks [] = none := rfl

theorem lastOf_append (ds ds' : List δ) :
    lastOf speaks (ds ++ ds') = (lastOf speaks ds').or (lastOf speaks ds) := by
  rw [lastOf, List.filterMap_append, List.getLast?_append]
  rfl

@[simp] theorem lastOf_singleton (d : δ) : lastOf speaks [d] = speaks d := by
  cases h : speaks d <;> simp [lastOf, h]

theorem lastOf_cons (d : δ) (ds : List δ) :
    lastOf speaks (d :: ds) = (lastOf speaks ds).or (speaks d) := by
  rw [← List.singleton_append, lastOf_append, lastOf_singleton]

/-- Reading the settings one after the other leaves what the last one says. -/
theorem get_foldl {step : τ → δ → τ} (get : τ → Option σ)
    (one : ∀ t d, get (step t d) = (speaks d).or (get t)) (ds : List δ) (t : τ) :
    get (ds.foldl step t) = (lastOf speaks ds).or (get t) := by
  induction ds generalizing t with
  | nil => rfl
  | cons d ds ih => rw [List.foldl_cons, ih, one, lastOf_cons, Option.or_assoc]

/-- Settings that say nothing of the matter may stand anywhere. -/
theorem lastOf_filter {q : δ → Bool} (silent : ∀ d, q d = false → speaks d = none) :
    lastOf speaks (ds.filter q) = lastOf speaks ds := by
  induction ds with
  | nil => rfl
  | cons d ds ih =>
    cases h : q d with
    | true => rw [List.filter_cons_of_pos h, lastOf_cons, lastOf_cons, ih]
    | false =>
      rw [List.filter_cons_of_neg (by simp [h]), lastOf_cons, ih, silent d h, Option.or_none]

theorem lastOf_filterMap {γ : Type*} {read : γ → Option δ} (lines : List γ) :
    lastOf speaks (lines.filterMap read) = lastOf (fun l => (read l).bind speaks) lines := by
  rw [lastOf, List.filterMap_filterMap]
  rfl

theorem lastOf_eq_none : lastOf speaks ds = none ↔ ∀ d ∈ ds, speaks d = none := by
  rw [lastOf, List.getLast?_eq_none_iff, List.filterMap_eq_nil_iff]

/-- The setting that wins, and nothing of the matter after it. -/
theorem lastOf_eq_some {x : σ} : lastOf speaks ds = some x ↔
    ∃ ds₁ d ds₂, ds = ds₁ ++ d :: ds₂ ∧ speaks d = some x ∧ ∀ e ∈ ds₂, speaks e = none := by
  constructor
  · intro h
    induction ds with
    | nil => cases h
    | cons d ds ih =>
      rw [lastOf_cons] at h
      cases later : lastOf speaks ds with
      | some y =>
        rw [later, Option.some_or] at h
        obtain ⟨ds₁, e, ds₂, rfl, said, silent⟩ := ih (later.trans h)
        exact ⟨d :: ds₁, e, ds₂, rfl, said, silent⟩
      | none =>
        rw [later, Option.none_or] at h
        exact ⟨[], d, ds, rfl, h, lastOf_eq_none.mp later⟩
  · rintro ⟨ds₁, d, ds₂, rfl, said, silent⟩
    rw [lastOf_append, lastOf_cons, lastOf_eq_none.mpr silent, said]
    rfl

end Library
