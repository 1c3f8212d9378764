import LibdftDr.Api.Tags
import LibdftDr.Core.Transfer

/-!
# Clearing a range

`clear_mem` and `clear_range` take a `size_t` and hand its low 32 bits to the engine. Of a range
of 4 GiB or more they clear a first part, or nothing; `clear_mem_iff` says when that is enough.
-/
namespace LibdftDr.Api
open Library

/-- `t` is `s` with `n` bytes from `addr` on emptied. -/
structure Cleared (s t : Shadow) (addr : ADDRINT) (n : ℕ) : Prop where
  empty : ∀ i < n, t.cell (.mem (byteAt addr i)) = clearedVal
  frame : ∀ c ∉ memSpan addr n, t.cell c = s.cell c

section Clearing

variable {s : Shadow} {addr : ADDRINT} {n : ℕ}

/-- The bytes that the engine clears are the first ones, as many as the low 32 bits say. -/
theorem clrn_cleared (s : Shadow) (h : InRange addr n) {k : UINT32} (le : k.toNat ≤ n) :
    Cleared s (s.withTagDir (fileTagmapClrn s.tagDir addr k)) addr k.toNat := by
  have part : InRange addr k.toNat := fun i hi => h i (hi.trans_le le)
  exact ⟨fun _ => clrn_empties s part, fun _ => clrn_frame s part⟩

/-- A range of the user addresses ends up empty, and the rest as it was, if and only if the bytes
from the low 32 bits of the size on are untainted already. -/
theorem clear_mem_iff {n : UINT64} (h : InRange addr n.toNat) :
    ((∃ t, clearMem addr n s = .ok (⟨⟩, t) ∧ Cleared s t addr n.toNat) ↔
      ∀ i, n.toNat % 2 ^ 32 ≤ i → i < n.toNat → s.cell (.mem (byteAt addr i)) = clearedVal) ∧
    ((∃ t, clearRange addr n s = .ok (⟨⟩, t) ∧ Cleared s t addr n.toNat) ↔
      ∀ i, n.toNat % 2 ^ 32 ≤ i → i < n.toNat → s.cell (.mem (byteAt addr i)) = clearedVal) := by
  have low : (n.setWidth 32 : UINT32).toNat = n.toNat % 2 ^ 32 := BitVec.toNat_setWidth 32 n
  have le : (n.setWidth 32 : UINT32).toNat ≤ n.toNat := low ▸ Nat.mod_le ..
  have first := clrn_cleared s h le
  rw [low] at first
  have both : (∃ t, clrn addr (n.setWidth 32) s = .ok (⟨⟩, t) ∧ Cleared s t addr n.toNat) ↔
      ∀ i, n.toNat % 2 ^ 32 ≤ i → i < n.toNat → s.cell (.mem (byteAt addr i)) = clearedVal := by
    constructor
    · rintro ⟨t, run, cleared⟩ i lo hi
      cases run
      rw [← cleared.empty i hi, first.frame]
      rw [mem_memSpan_iff fun j hj => h j (by omega), h.successive i hi]
      omega
    · intro rest
      refine ⟨_, rfl, fun i hi => ?_, fun c hc => first.frame c ?_⟩
      · by_cases lo : i < n.toNat % 2 ^ 32
        · exact first.empty i lo
        · rw [first.frame]
          · exact rest i (not_lt.mp lo) hi
          · rw [mem_memSpan_iff fun j hj => h j (by omega), h.successive i hi]
            omega
      · rintro ⟨i, hi, rfl⟩
        exact hc (mem_memSpan_self (by omega))
  exact ⟨both, both⟩

end Clearing

/-- Sixteen bytes are cleared; of 4 GiB none is. -/
theorem clear_mem_iff_sixteen :
    (∃ t, clearMem 0x1000 16 (oneTainted 0x1000) = .ok (⟨⟩, t) ∧
      Cleared (oneTainted 0x1000) t 0x1000 16) ∧
    ¬ ∃ t, clearMem 0x1000 0x100000000 (oneTainted 0x1000) = .ok (⟨⟩, t) ∧
      Cleared (oneTainted 0x1000) t 0x1000 0x100000000 := by
  constructor
  · have short : InRange 0x1000 (16 : UINT64).toNat := inRange_of_toNat_le (by decide)
    refine (clear_mem_iff short).1.mpr fun i lo hi => ?_
    have : (16 : UINT64).toNat = 16 := rfl
    omega
  · have long : InRange 0x1000 (0x100000000 : UINT64).toNat := inRange_of_toNat_le (by decide)
    intro clears
    have first := (clear_mem_iff long).1.mp clears 0 (by decide) (by decide)
    rw [oneTainted_cell] at first
    exact absurd first (by decide)

/-- Clearing 4 GiB leaves a tainted first byte as it is. -/
theorem clear_mem_keeps_tag :
    ¬ ∀ (s : Shadow) (addr : ADDRINT) (n : UINT64), s.Sound → InRange addr n.toNat →
      (∃ t, clearMem addr n s = .ok (⟨⟩, t) ∧ Cleared s t addr n.toNat) ∧
      ∃ t, clearRange addr n s = .ok (⟨⟩, t) ∧ Cleared s t addr n.toNat := by
  intro claim
  have long : InRange 0x1000 (0x100000000 : UINT64).toNat := inRange_of_toNat_le (by decide)
  obtain ⟨⟨t, run, cleared⟩, -⟩ := claim _ _ 0x100000000 (oneTainted_sound 0x1000) long
  cases run
  have first : (oneTainted 0x1000).cell (.mem 0x1000) = clearedVal :=
    ((clrn_cleared _ long (Nat.zero_le _)).frame (.mem 0x1000) (by simp [memSpan])).symm.trans
      (cleared.empty 0 (by decide))
  rw [oneTainted_cell] at first
  exact absurd first (by decide)

end LibdftDr.Api
