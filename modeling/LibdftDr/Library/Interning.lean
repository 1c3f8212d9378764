import Mathlib.Data.List.Nodup
import Mathlib.Logic.Function.Basic

/-!
# Interning with a memo table

Values are stored once, in a list that only grows; `index` finds the number of a stored
value from its key, and numbers of an arbitrary type `ι` are positions through `pos`.
`Interned` says that the index knows exactly the stored values. A memo table remembers
results of a binary operation by number; `Memoized` says every remembered result is right.
Both are kept by appending, so a number never changes what it stands for.
-/
namespace Library

variable {σ κ ι μ : Type*}

/-- A position keeps its value when a list grows at the end. -/
theorem getElem?_of_le {values more : List σ} (le : values <+: more) {i : ℕ} {v : σ}
    (h : values[i]? = some v) : more[i]? = some v := by
  obtain ⟨rest, rfl⟩ := le
  rw [List.getElem?_append_left (List.getElem?_eq_some_iff.mp h).1, h]

/-- The index finds every stored value at its position, and nothing else. -/
structure Interned (key : σ → κ) (pos : ι → ℕ) (values : List σ) (index : κ → Option ι) :
    Prop where
  sound : ∀ k i, index k = some i → ∃ v, values[pos i]? = some v ∧ key v = k
  complete : ∀ j v, values[j]? = some v → ∃ i, index (key v) = some i ∧ pos i = j

namespace Interned

variable {key : σ → κ} {pos : ι → ℕ} {values : List σ} {index : κ → Option ι}

/-- Equal keys are stored once. -/
theorem position_unique (h : Interned key pos values index) {i j : ℕ} {u v : σ}
    (hi : values[i]? = some u) (hj : values[j]? = some v) (hk : key u = key v) : i = j := by
  obtain ⟨m, hm, rfl⟩ := h.complete i u hi
  obtain ⟨n, hn, rfl⟩ := h.complete j v hj
  rw [hk, hn, Option.some.injEq] at hm
  rw [hm]

theorem nodup (h : Interned key pos values index) : values.Nodup := by
  refine List.nodup_iff_injective_get.mpr fun i j hij => Fin.ext ?_
  exact h.position_unique (List.getElem?_eq_getElem i.isLt) (List.getElem?_eq_getElem j.isLt)
    (congrArg key hij)

/-- A hit returns a number of the value asked for, when keys tell values apart. -/
theorem hit (h : Interned key pos values index) (inj : Function.Injective key)
    {v : σ} {i : ι} (found : index (key v) = some i) : values[pos i]? = some v := by
  obtain ⟨u, hu, hk⟩ := h.sound _ _ found
  rwa [inj hk] at hu

theorem empty : Interned key pos [] (fun _ => none) := ⟨by simp, by simp⟩

/-- Storing a value whose key is not known yet, under the number of the next position. -/
theorem push [DecidableEq κ] (h : Interned key pos values index) {v : σ} {i : ι}
    (fresh : index (key v) = none) (next : pos i = values.length) :
    Interned key pos (values ++ [v]) (Function.update index (key v) (some i)) := by
  constructor
  · intro k j hj
    by_cases hk : k = key v
    · subst hk
      obtain rfl : i = j := by simpa using hj
      exact ⟨v, by simp [next], rfl⟩
    · rw [Function.update_of_ne hk] at hj
      obtain ⟨u, hu, hku⟩ := h.sound k j hj
      exact ⟨u, getElem?_of_le (List.prefix_append _ _) hu, hku⟩
  · intro j u hu
    by_cases hj : j < values.length
    · rw [List.getElem?_append_left hj] at hu
      obtain ⟨m, hm, hp⟩ := h.complete j u hu
      have hk : key u ≠ key v := fun hk => by simp [hk, fresh] at hm
      exact ⟨m, by rw [Function.update_of_ne hk, hm], hp⟩
    · have hlt := (List.getElem?_eq_some_iff.mp hu).1
      have hlast : j = values.length := by simp at hlt; omega
      subst hlast
      obtain rfl : v = u := by simpa using hu
      exact ⟨i, by simp, next⟩

end Interned

/-- Every remembered entry belongs to a pair of stored values and stands for their result. -/
def Memoized (op : σ → σ → σ) (pair : ι → ι → μ) (pos : ι → ℕ) (values : List σ)
    (memo : μ → Option ι) : Prop :=
  ∀ m c, memo m = some c → ∃ a b u v, m = pair a b ∧ values[pos a]? = some u ∧
    values[pos b]? = some v ∧ values[pos c]? = some (op u v)

namespace Memoized

variable {op : σ → σ → σ} {pair : ι → ι → μ} {pos : ι → ℕ} {values : List σ}
  {memo : μ → Option ι}

theorem empty : Memoized op pair pos values (fun _ => none) := by simp [Memoized]

theorem mono (h : Memoized op pair pos values memo) {more : List σ} (le : values <+: more) :
    Memoized op pair pos more memo := by
  intro m c hm
  obtain ⟨a, b, u, v, rfl, ha, hb, hc⟩ := h m c hm
  exact ⟨a, b, u, v, rfl, getElem?_of_le le ha, getElem?_of_le le hb,
    getElem?_of_le le hc⟩

theorem remember [DecidableEq μ] (h : Memoized op pair pos values memo) {a b c : ι} {u v : σ}
    (ha : values[pos a]? = some u) (hb : values[pos b]? = some v)
    (hc : values[pos c]? = some (op u v)) :
    Memoized op pair pos values (Function.update memo (pair a b) (some c)) := by
  intro m d hm
  by_cases hk : m = pair a b
  · subst hk
    obtain rfl : c = d := by simpa using hm
    exact ⟨a, b, u, v, rfl, ha, hb, hc⟩
  · rw [Function.update_of_ne hk] at hm
    exact h m d hm

/-- What an entry under `pair a b` says, when a pair's key determines the pair. -/
theorem result (h : Memoized op pair pos values memo)
    (inj : ∀ a b a' b', pair a b = pair a' b' → a = a' ∧ b = b') {a b c : ι}
    (found : memo (pair a b) = some c) :
    ∃ u v, values[pos a]? = some u ∧ values[pos b]? = some v ∧
      values[pos c]? = some (op u v) := by
  obtain ⟨a', b', u, v, hp, ha, hb, hc⟩ := h _ _ found
  obtain ⟨rfl, rfl⟩ := inj _ _ _ _ hp
  exact ⟨u, v, ha, hb, hc⟩

end Memoized

end Library
