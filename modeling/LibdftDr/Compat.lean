import Mathlib.Algebra.Group.Nat.Defs
import Mathlib.Data.Nat.Notation

/-!
# Types shared by the model

The fixed-width spellings of `dr_compat.h`, text, and the ways C++ code can leave defined
behaviour. A faulting access is an error of the model, never a default value.
-/
namespace LibdftDr

abbrev UINT8 := BitVec 8
abbrev UINT32 := BitVec 32
abbrev UINT64 := BitVec 64
/-- `int`, read as a signed number by `BitVec.toInt`. -/
abbrev INT32 := BitVec 32
/-- `uintptr_t` on x86-64. -/
abbrev ADDRINT := BitVec 64

/-- `std::string`, and the contents of files. -/
abbrev Text := List Char

/-- The text after the last slash, by `find_last_of` or `strrchr`. -/
def basenameOf (path : Text) : Text := (path.reverse.takeWhile (· ≠ '/')).reverse

/-- Undefined behaviour of the source, one constructor a kind. -/
inductive Fault where
  /-- A read through a null pointer. -/
  | nullDeref
  /-- An index outside an array or vector. -/
  | outOfBounds
  /-- A read through a pointer into a vector that has been changed since. -/
  | dangling
  deriving DecidableEq, Repr

/-- Below a bound, the address increment does not wrap. -/
theorem toNat_add_one_of_lt {i stop : ADDRINT} (h : i < stop) : (i + 1).toNat = i.toNat + 1 := by
  have : i.toNat < stop.toNat := h
  have := stop.isLt
  change (i.toNat + 1) % 2 ^ 64 = i.toNat + 1
  omega

end LibdftDr
