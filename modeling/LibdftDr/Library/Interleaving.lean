import Mathlib.Data.List.Basic

/-!
# Interleavings

The entries of a schedule carry the name of the thread that they are of. Two schedules with the
same entries of each thread, in the same order, are `SameThreads`: they interleave the same
threads. If entries of different threads commute, such schedules come to the same state
(`foldl_eq`).
-/
namespace Library

variable {τ α σ : Type*}

section Entries

variable [DecidableEq τ]

/-- The entries of one thread. -/
def entriesOf (t : τ) (xs : List (τ × α)) : List α :=
  xs.filterMap fun x => if x.1 = t then some x.2 else none

def SameThreads (xs ys : List (τ × α)) : Prop := ∀ t, entriesOf t xs = entriesOf t ys

variable {t u : τ} {a : α} {x : τ × α} {xs ys : List (τ × α)}

@[simp] theorem entriesOf_nil : entriesOf t ([] : List (τ × α)) = [] := rfl

@[simp] theorem entriesOf_cons_self : entriesOf t ((t, a) :: xs) = a :: entriesOf t xs := by
  simp [entriesOf]

theorem entriesOf_cons_of_ne (h : u ≠ t) : entriesOf t ((u, a) :: xs) = entriesOf t xs := by
  simp [entriesOf, h]

theorem entriesOf_append : entriesOf t (xs ++ ys) = entriesOf t xs ++ entriesOf t ys :=
  List.filterMap_append

theorem mem_entriesOf : a ∈ entriesOf t xs ↔ (t, a) ∈ xs := by
  simp only [entriesOf, List.mem_filterMap, Option.ite_none_right_eq_some, Option.some.injEq]
  constructor
  · rintro ⟨⟨_, _⟩, mem, rfl, rfl⟩
    exact mem
  · exact fun mem => ⟨_, mem, rfl, rfl⟩

theorem SameThreads.mem_iff (h : SameThreads xs ys) : x ∈ xs ↔ x ∈ ys := by
  obtain ⟨t, a⟩ := x
  rw [← mem_entriesOf, h t, mem_entriesOf]

/-- The first entry of a thread stands behind entries of other threads. -/
theorem exists_split_of_entriesOf {rest : List α} (h : entriesOf t ys = a :: rest) :
    ∃ as bs, ys = as ++ (t, a) :: bs ∧ ∀ x ∈ as, x.1 ≠ t := by
  induction ys with
  | nil => exact absurd h (List.cons_ne_nil _ _).symm
  | cons y ys ih =>
    obtain ⟨u, b⟩ := y
    by_cases own : u = t
    · subst own
      rw [entriesOf_cons_self] at h
      obtain ⟨rfl, -⟩ := List.cons.inj h
      exact ⟨[], ys, rfl, by simp⟩
    · rw [entriesOf_cons_of_ne own] at h
      obtain ⟨as, bs, rfl, others⟩ := ih h
      refine ⟨(u, b) :: as, bs, rfl, fun x hx => ?_⟩
      rcases List.mem_cons.mp hx with rfl | hx
      · exact own
      · exact others x hx

/-- The first entry of one schedule, taken out of both. -/
theorem SameThreads.of_cons {as bs : List (τ × α)} (h : SameThreads (x :: xs) (as ++ x :: bs))
    (others : ∀ y ∈ as, y.1 ≠ x.1) : SameThreads xs (as ++ bs) := by
  obtain ⟨t, a⟩ := x
  intro u
  have same := h u
  rw [entriesOf_append] at same ⊢
  by_cases own : t = u
  · subst own
    have none : entriesOf t as = [] := List.filterMap_eq_nil_iff.mpr fun y hy =>
      if_neg (others y hy)
    rw [entriesOf_cons_self, entriesOf_cons_self, none] at same
    rw [none]
    exact (List.cons.inj same).2
  · rwa [entriesOf_cons_of_ne own, entriesOf_cons_of_ne own] at same

end Entries

section Fold

variable {act : σ → τ × α → σ} {x : τ × α} {xs ys : List (τ × α)}

/-- Entries of different threads commute. -/
def Commutes (act : σ → τ × α → σ) (xs : List (τ × α)) : Prop :=
  ∀ x ∈ xs, ∀ y ∈ xs, x.1 ≠ y.1 → ∀ s, act (act s x) y = act (act s y) x

theorem Commutes.mono (h : Commutes act ys) (sub : ∀ x ∈ xs, x ∈ ys) : Commutes act xs :=
  fun x hx y hy => h x (sub x hx) y (sub y hy)

/-- An entry moves to the front over entries of other threads. -/
theorem foldl_move {as : List (τ × α)} (comm : Commutes act (x :: as))
    (others : ∀ y ∈ as, y.1 ≠ x.1) (s : σ) : act (as.foldl act s) x = as.foldl act (act s x) := by
  induction as generalizing s with
  | nil => rfl
  | cons y as ih =>
    have rest : Commutes act (x :: as) := comm.mono fun z hz => by
      rcases List.mem_cons.mp hz with rfl | hz
      · exact .head _
      · exact .tail _ (.tail _ hz)
    have first : act (act s x) y = act (act s y) x :=
      comm x (.head _) y (.tail _ (.head _)) (others y (.head _)).symm s
    rw [List.foldl_cons, List.foldl_cons, ih rest fun z hz => others z (.tail _ hz), first]

variable [DecidableEq τ]

/-- Schedules that interleave the same threads come to the same state. -/
theorem SameThreads.foldl_eq (h : SameThreads xs ys) (comm : Commutes act xs) (s : σ) :
    xs.foldl act s = ys.foldl act s := by
  induction xs generalizing ys s with
  | nil =>
    cases ys with
    | nil => rfl
    | cons y ys => exact absurd (h.mem_iff.mpr (.head _)) List.not_mem_nil
  | cons x xs ih =>
    have first : entriesOf x.1 ys = x.2 :: entriesOf x.1 xs :=
      (h x.1).symm.trans entriesOf_cons_self
    obtain ⟨as, bs, rfl, others⟩ := exists_split_of_entriesOf first
    have rest := h.of_cons others
    have front : act (as.foldl act s) x = as.foldl act (act s x) := by
      refine foldl_move (comm.mono fun y hy => ?_) others s
      rcases List.mem_cons.mp hy with rfl | hy
      · exact .head _
      · exact h.mem_iff.mpr (List.mem_append_left _ hy)
    rw [List.foldl_cons, List.foldl_append, List.foldl_cons, front, ← List.foldl_append]
    exact ih rest (comm.mono fun y hy => .tail _ hy) _

end Fold

end Library
