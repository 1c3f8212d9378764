import Mathlib.Data.Finset.Card
import Mathlib.Data.List.Sort

/-!
# Finite sets as ascending lists

A finite set over a linear order, stored as its members in strictly ascending order.
The order is carried by the type, so a set has exactly one representation: equality is
decidable and agrees with having the same members, and `toFinset` is injective.
-/
namespace Library

variable {α : Type*} [LinearOrder α]

/-- Insert into a strictly ascending list; an element already there is kept once. -/
def insertAscending (x : α) : List α → List α
  | [] => [x]
  | y :: ys =>
    if x < y then x :: y :: ys
    else if x = y then y :: ys
    else y :: insertAscending x ys

@[simp] theorem mem_insertAscending (x y : α) (l : List α) :
    y ∈ insertAscending x l ↔ y = x ∨ y ∈ l := by
  induction l with
  | nil => simp [insertAscending]
  | cons z zs ih =>
    unfold insertAscending
    split_ifs with hlt heq
    · simp
    · subst heq; simp
    · simp only [List.mem_cons, ih]; exact or_left_comm

theorem pairwise_insertAscending (x : α) {l : List α} (h : l.Pairwise (· < ·)) :
    (insertAscending x l).Pairwise (· < ·) := by
  induction l with
  | nil => simp [insertAscending]
  | cons z zs ih =>
    obtain ⟨hz, hzs⟩ := List.pairwise_cons.mp h
    unfold insertAscending
    split_ifs with hlt heq
    · refine List.pairwise_cons.mpr ⟨fun w hw => ?_, h⟩
      obtain rfl | hw := List.mem_cons.mp hw
      · exact hlt
      · exact hlt.trans (hz w hw)
    · exact h
    · refine List.pairwise_cons.mpr ⟨fun w hw => ?_, ih hzs⟩
      obtain rfl | hw := (mem_insertAscending x w zs).mp hw
      · exact lt_of_le_of_ne (not_lt.mp hlt) (Ne.symm heq)
      · exact hz w hw

/-- A finite set presented by its members in strictly ascending order. -/
@[ext] structure Ascending (α : Type*) [LinearOrder α] where
  members : List α
  ascending : members.Pairwise (· < ·)
deriving DecidableEq

namespace Ascending

/-- The set a representation stands for. -/
def toFinset (s : Ascending α) : Finset α := s.members.toFinset

@[simp] theorem mem_toFinset (s : Ascending α) (x : α) : x ∈ s.toFinset ↔ x ∈ s.members :=
  List.mem_toFinset

theorem nodup (s : Ascending α) : s.members.Nodup :=
  s.ascending.imp fun h => ne_of_lt h

/-- One set has one representation. -/
theorem toFinset_injective : Function.Injective (toFinset : Ascending α → Finset α) := by
  intro s t h
  refine Ascending.ext (s.ascending.eq_of_mem_iff t.ascending fun x => ?_)
  rw [← mem_toFinset, h, mem_toFinset]

@[simp] theorem toFinset_inj (s t : Ascending α) : s.toFinset = t.toFinset ↔ s = t :=
  toFinset_injective.eq_iff

@[simp] theorem card_toFinset (s : Ascending α) : s.toFinset.card = s.members.length :=
  List.toFinset_card_of_nodup s.nodup

def empty : Ascending α := ⟨[], List.Pairwise.nil⟩

def singleton (x : α) : Ascending α := ⟨[x], List.pairwise_singleton _ _⟩

def insert (x : α) (s : Ascending α) : Ascending α :=
  ⟨insertAscending x s.members, pairwise_insertAscending x s.ascending⟩

/-- Union, by inserting the members of the first set into the second. -/
def union (s t : Ascending α) : Ascending α := s.members.foldr insert t

@[simp] theorem toFinset_empty : (empty : Ascending α).toFinset = ∅ := rfl

@[simp] theorem toFinset_singleton (x : α) : (singleton x).toFinset = {x} := by
  ext y; simp [singleton]

@[simp] theorem toFinset_insert (x : α) (s : Ascending α) :
    (insert x s).toFinset = Insert.insert x s.toFinset := by
  ext y; simp [insert]

@[simp] theorem toFinset_union (s t : Ascending α) :
    (s.union t).toFinset = s.toFinset ∪ t.toFinset := by
  have key : ∀ l : List α, (l.foldr insert t).toFinset = l.toFinset ∪ t.toFinset := by
    intro l
    induction l with
    | nil => simp
    | cons x l ih => simp [ih, Finset.insert_union]
  exact key s.members

end Ascending

end Library
