import Mathlib.Logic.Function.Basic

/-!
# Lazily allocated arrays

An array of slots, each empty until its first write. An empty slot reads as a blank value,
and a write to it starts from the blank. Reading after a modification gives the modified
value at the slot that was modified and the old value elsewhere, so sparse arrays nested in
one another refine one flat map whenever their indices determine the address.
-/
namespace Library

/-- `none` is a slot that has not been allocated. -/
abbrev Sparse (ι α : Type*) := ι → Option α

namespace Sparse

variable {ι α : Type*} {blank : α}

def unallocated : Sparse ι α := fun _ => none

/-- The content of a slot, or the blank value when there is none. -/
def read (blank : α) (s : Sparse ι α) (i : ι) : α := (s i).getD blank

/-- Change one slot, allocating it from the blank value first. -/
def modify [DecidableEq ι] (blank : α) (s : Sparse ι α) (i : ι) (f : α → α) : Sparse ι α :=
  Function.update s i (some (f (s.read blank i)))

variable [DecidableEq ι]

theorem read_modify (s : Sparse ι α) (i j : ι) (f : α → α) :
    (s.modify blank i f).read blank j = if j = i then f (s.read blank i) else s.read blank j := by
  by_cases h : j = i
  · subst h; simp [modify, read]
  · simp [modify, read, h]

@[simp] theorem read_modify_self (s : Sparse ι α) (i : ι) (f : α → α) :
    (s.modify blank i f).read blank i = f (s.read blank i) := by
  simp [read_modify]

end Sparse

end Library
