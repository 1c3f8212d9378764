import LibdftDr.Compat
import LibdftDr.Library.Ascending
import LibdftDr.Library.Interning
import LibdftDr.Library.Separated

/-!
# The interned-label set table

`tagmap.cpp` keeps three tables: `g_sets` (id to offset set), `g_intern` (printed set to
id) and `g_combine` (packed pair of ids to the id of the union). A tag is a 32-bit id.

`SetTable.Live` says that no id points past `g_sets` and that only id 0 is the empty set; it
holds in every run. `SetTable.Exact` says that ids and sets correspond one to one and that
remembered unions are unions; it needs `g_sets` to stay within the range of an id.
-/
namespace LibdftDr
open Library

/-- `EWAHBoolArray<uint32_t>` as the finite set of positions it stands for. -/
abbrev Ewah := Ascending ℕ

namespace Ewah

/-- Setting one bit of a fresh array. -/
def set (offset : UINT32) : Ewah := Ascending.singleton offset.toNat

def logicalor (a b : Ewah) : Ewah := a.union b

def numberOfOnes (s : Ewah) : ℕ := s.members.length

/-- `operator<<`: the set bits in iteration order, in braces. -/
def print (s : Ewah) : Text := '{' :: separated ',' (s.members.map decimal) ++ ['}']

end Ewah

/-- The canonical serialization, also the form written to cmp.out and lea.out. -/
def ewahSprint (s : Ewah) : Text :=
  if s.numberOfOnes ≠ 0 then s.print else ['{', '}']

theorem ewahSprint_eq_print (s : Ewah) : ewahSprint s = s.print := by
  unfold ewahSprint Ewah.print Ewah.numberOfOnes
  split_ifs with h
  · rfl
  · rw [List.eq_nil_of_length_eq_zero (not_not.mp h)]; rfl

/-- The printed form is a key: different sets never print alike. -/
theorem ewahSprint_injective : Function.Injective ewahSprint := by
  intro s t h
  rw [ewahSprint_eq_print, ewahSprint_eq_print] at h
  have inner := List.append_cancel_right (List.cons.inj h).2
  exact Ascending.ext (separated_decimal_injective ',' (by decide) inner)

/-- `dft_label`: the shadow cell, an id into the set table; id 0 is the empty set. -/
@[ext] structure Tag where
  id : UINT32
  deriving DecidableEq, Repr

/-- `tag_traits<tag_t>::cleared_val`. -/
def clearedVal : Tag := ⟨0⟩

structure SetTable where
  gSets : List Ewah
  gIntern : Text → Option UINT32
  gCombine : UINT64 → Option UINT32

/-- `((uint64_t)a << 32) | (uint64_t)b`, the key of `g_combine`. -/
def combineKey (a b : UINT32) : UINT64 := (a.setWidth 64 <<< 32) ||| b.setWidth 64

theorem combineKey_injective {a b a' b' : UINT32} (h : combineKey a b = combineKey a' b') :
    a = a' ∧ b = b' := by
  have packed : ∀ x y : UINT32, (combineKey x y).toNat = x.toNat * 2 ^ 32 + y.toNat := by
    intro x y
    have hx := x.isLt
    have hy := y.isLt
    have shifted : x.toNat <<< 32 % 2 ^ 64 = 2 ^ 32 * x.toNat := by
      rw [Nat.shiftLeft_eq]; omega
    simp only [combineKey, BitVec.toNat_or, BitVec.toNat_shiftLeft, BitVec.toNat_setWidth]
    rw [Nat.mod_eq_of_lt (by omega : x.toNat < 2 ^ 64), Nat.mod_eq_of_lt (by omega :
      y.toNat < 2 ^ 64), shifted, ← Nat.two_pow_add_eq_or_of_lt hy]
    omega
  have hn := congrArg BitVec.toNat h
  rw [packed, packed] at hn
  have := b.isLt
  have := b'.isLt
  exact ⟨BitVec.eq_of_toNat_eq (by omega), BitVec.eq_of_toNat_eq (by omega)⟩

/-- `tagmap_alloc`: empty tables, then the empty set under id 0. -/
def tagmapAlloc : SetTable where
  gSets := [Ascending.empty]
  gIntern := Function.update (fun _ => none) (ewahSprint Ascending.empty) (some 0)
  gCombine := fun _ => none

def internSet (s : Ewah) (tb : SetTable) : UINT32 × SetTable :=
  match tb.gIntern (ewahSprint s) with
  | some id => (id, tb)
  | none =>
    let id := BitVec.ofNat 32 tb.gSets.length
    (id, { tb with
      gSets := tb.gSets ++ [s]
      gIntern := Function.update tb.gIntern (ewahSprint s) (some id) })

/-- `dft_label::set`: intern the singleton of `offset`. -/
def Tag.set (offset : UINT32) (tb : SetTable) : Tag × SetTable :=
  let (id, tb) := internSet (Ewah.set offset) tb
  (⟨id⟩, tb)

/-- `tag_combine`. `g_sets` is indexed without a check, so an id past its end is a fault. -/
def tagCombine (lhs rhs : Tag) (tb : SetTable) : Except Fault (Tag × SetTable) :=
  if lhs.id = rhs.id then .ok (lhs, tb)
  else if lhs.id = 0 then .ok (rhs, tb)
  else if rhs.id = 0 then .ok (lhs, tb)
  else
    match tb.gCombine (combineKey lhs.id rhs.id) with
    | some id => .ok (⟨id⟩, tb)
    | none =>
      match tb.gSets[lhs.id.toNat]?, tb.gSets[rhs.id.toNat]? with
      | some a, some b =>
        let (id, tb) := internSet (a.logicalor b) tb
        -- union is commutative: the mirrored pair is remembered too
        .ok (⟨id⟩, { tb with
          gCombine := Function.update
            (Function.update tb.gCombine (combineKey lhs.id rhs.id) (some id))
            (combineKey rhs.id lhs.id) (some id) })
      | _, _ => .error .outOfBounds

/-- `dft_label::numberOfOnes`. -/
def Tag.numberOfOnes (t : Tag) (tb : SetTable) : UINT32 :=
  if t.id = 0 then 0
  else
    match tb.gSets[t.id.toNat]? with
    | none => 0
    | some s => BitVec.ofNat 32 s.numberOfOnes

def tagSprint (t : Tag) (tb : SetTable) : Text :=
  if t.id = 0 then ['{', '}']
  else
    match tb.gSets[t.id.toNat]? with
    | none => ['{', '}']
    | some s => ewahSprint s

def tagCount (t : Tag) : Bool := t.id != 0

/-- `tag_walk`: the visitor sees the members in ascending order until it answers false. -/
def tagWalk {υ : Type} (t : Tag) (tb : SetTable) (visit : UINT32 → υ → Bool × υ) (user : υ) :
    Bool × υ :=
  if t.id = 0 then (true, user)
  else
    match tb.gSets[t.id.toNat]? with
    | none => (true, user)
    | some s => go s.members user
where
  go : List ℕ → υ → Bool × υ
    | [], user => (true, user)
    | x :: xs, user =>
      match visit (BitVec.ofNat 32 x) user with
      | (false, user) => (false, user)
      | (true, user) => go xs user

end LibdftDr
