import LibdftDr.Core.UpperHalf

/-!
# What LEA does to its destination

`lea_prop` gives byte `i` of the destination the union of bytes `i` of the rows of the base and
of the index. That is the union of the two address registers only where these are as wide as
the destination, and for an operand that is not a base-displacement one the inserter leaves the
destination as it was. `lea_unites_iff` says exactly when the result is right.
-/
namespace LibdftDr
open Library Library.Action

/-! ## One union -/

/-- With room for the union, combining returns an id of it. -/
theorem combine_unites {s : Shadow} {l r : Tag} (hl : s.sets.Knows l) (hr : s.sets.Knows r)
    (room : s.RoomFor {s.sets.setOf l ∪ s.sets.setOf r}) :
    ∃ u tb, combine l r s = .ok (u, s.withSets tb) ∧ s.sets.Grows tb ∧ tb.Exact ∧
      tb.stored = insert (s.sets.setOf l ∪ s.sets.setOf r) s.sets.stored ∧
      tb.setOf u = s.sets.setOf l ∪ s.sets.setOf r := by
  obtain ⟨u, tb, run, -, -⟩ := SetTable.tagCombine_live room.1.live hl hr
  obtain ⟨stored, length⟩ := SetTable.tagCombine_stored room.1 hl hr run
  have small : tb.gSets.length ≤ idSpace := by
    rw [length, stored, Finset.insert_eq, Finset.union_comm]
    exact room.2
  obtain ⟨exact', -, union⟩ := SetTable.tagCombine_exact room.1 hl hr run small
  exact ⟨u, tb, combine_run run, SetTable.tagCombine_grows run, exact', stored, union⟩

/-! ## The handler -/

/-- The operands of `lea_prop` without the instruction's address. -/
structure LeaRows where
  dst : ℕ
  base : ℕ
  baseStart : ℕ
  idx : ℕ
  idxStart : ℕ

namespace LeaRows

/-- What byte `i` of the destination becomes. -/
def union (a : LeaRows) (s : Shadow) (i : ℕ) : Finset ℕ :=
  s.labelsOf (.reg a.base (a.baseStart + i)) ∪ s.labelsOf (.reg a.idx (a.idxStart + i))

def unions (a : LeaRows) (s : Shadow) (n : ℕ) : Finset (Finset ℕ) :=
  (Finset.range n).image (a.union s)

/-- `t` is `s` with the first `n` bytes of the destination written. -/
structure United (a : LeaRows) (s t : Shadow) (n : ℕ) : Prop where
  exact : t.sets.Exact
  stored : t.sets.stored = s.sets.stored ∪ a.unions s n
  bytes : ∀ i < n, t.labelsOf (.reg a.dst i) = a.union s i

def body (a : LeaRows) (i : ℕ) : Engine PUnit := do
  let b ← gprGet a.base (a.baseStart + i)
  let x ← gprGet a.idx (a.idxStart + i)
  gprSet a.dst i (← combine b x)

variable {a : LeaRows} {s t : Shadow} {n : ℕ}

theorem unions_succ : a.unions s (n + 1) = insert (a.union s n) (a.unions s n) := by
  rw [unions, Finset.range_add_one, Finset.image_insert]
  rfl

/-- A byte that is still to be read has not been written, also if a source row is that of the
destination. -/
theorem cell_ahead (le : Shadow.Le (regSpan a.dst 0 n) s t) {row start : ℕ} :
    t.cell (.reg row (start + n)) = s.cell (.reg row (start + n)) := by
  refine le.frame _ fun mem => ?_
  have := mem_regSpan.mp mem
  omega

theorem body_flow {L : Set ℕ} {held : Set Tag} {i : ℕ} (hd : GprSpan a.dst 0 n)
    (hb : GprSpan a.base a.baseStart n) (hx : GprSpan a.idx a.idxStart n) (hi : i < n) :
    Flow (regSpan a.dst 0 n) L held True (fun _ => ∅) (a.body i) := leaByte_flow hd hb hx hi

/-- One more byte of the destination. -/
theorem United.step (h : a.United s t n) (sound : s.Sound) (sound' : t.Sound)
    (le : Shadow.Le (regSpan a.dst 0 n) s t) (room : s.RoomFor (a.unions s (n + 1)))
    (hd : InFile a.dst n) (hb : InFile a.base (a.baseStart + n))
    (hx : InFile a.idx (a.idxStart + n)) :
    ∃ u, a.body n t = .ok (⟨⟩, u) ∧ a.United s u (n + 1) := by
  have ahead : ∀ {row start},
      t.labelsOf (.reg row (start + n)) = s.labelsOf (.reg row (start + n)) :=
    fun {row start} => by
      rw [Shadow.labelsOf, cell_ahead le, le.grows.setOf (sound.known _)]
  have union : t.labelsOf (.reg a.base (a.baseStart + n)) ∪
      t.labelsOf (.reg a.idx (a.idxStart + n)) = a.union s n := by
    rw [ahead, ahead, LeaRows.union]
  have room' : t.RoomFor {a.union s n} := by
    refine ⟨h.exact, ?_⟩
    rw [h.stored, Finset.union_assoc, Finset.union_comm (a.unions s n), ← Finset.insert_eq,
      ← unions_succ]
    exact room.2
  obtain ⟨v, tb, run, grows, exact', stored, denotes⟩ :=
    combine_unites (sound'.known _) (sound'.known _) (by rw [union]; exact room')
  rw [union] at stored denotes
  have getb : gprGet a.base (a.baseStart + n) t = _ := if_pos hb
  have getx : gprGet a.idx (a.idxStart + n) t = _ := if_pos hx
  obtain ⟨u, set⟩ : ∃ u, gprSet a.dst n v (t.withSets tb) = .ok (⟨⟩, u) := ⟨_, if_pos hd⟩
  obtain ⟨sets, cells⟩ := Shadow.cell_gprSet set
  refine ⟨u, ?_, ⟨sets ▸ exact', ?_, fun i hi => ?_⟩⟩
  · rw [body, bind_of_ok getb, bind_of_ok getx]
    exact (bind_of_ok run).trans set
  · rw [sets]
    change tb.stored = _
    rw [stored, h.stored, unions_succ, Finset.union_insert]
  · rw [Shadow.labelsOf, sets, cells]
    change tb.setOf _ = _
    obtain rfl | lt : i = n ∨ i < n := by omega
    · rw [if_pos rfl]
      exact denotes
    · rw [if_neg (by simp; omega), Shadow.cell_withSets, grows.setOf (sound'.known _)]
      exact h.bytes i lt

/-- With room for the unions, the loop of `lea_prop` writes them. -/
theorem loop_run (sound : s.Sound) (hd : GprSpan a.dst 0 n) (hb : GprSpan a.base a.baseStart n)
    (hx : GprSpan a.idx a.idxStart n) (room : s.RoomFor (a.unions s n)) :
    ∃ t, loop n a.body s = .ok (⟨⟩, t) ∧ a.United s t n := by
  have rounds : ∀ k ≤ n, ∃ t, loop k a.body s = .ok (⟨⟩, t) ∧ t.Sound ∧
      Shadow.Le (regSpan a.dst 0 k) s t ∧ a.United s t k := by
    intro k hk
    induction k with
    | zero =>
      refine ⟨s, rfl, sound, (Shadow.world _ Set.univ).refl s, room.1, ?_, by simp⟩
      simp [unions]
    | succ k ih =>
      obtain ⟨t, run, sound', le, united⟩ := ih (by omega)
      have narrow : ∀ {row start}, GprSpan row start n → GprSpan row start (k + 1) :=
        fun h => ⟨h.row, by have := h.bytes; omega⟩
      have sub : a.unions s (k + 1) ⊆ a.unions s n :=
        Finset.image_subset_image (Finset.range_subset_range.mpr hk)
      obtain ⟨u, last, united'⟩ := united.step sound sound' le (room.mono sub)
        (by simpa using hd.inFile hk) (hb.inFile hk) (hx.inFile hk)
      have run' : loop (k + 1) a.body s = .ok (⟨⟩, u) := (loop_succ_of_ok run).trans last
      have flow : Flow (regSpan a.dst 0 (k + 1)) Set.univ ∅ True (fun _ => ∅)
          (loop (k + 1) a.body) :=
        World.Triple.loop_of_true fun i hi => body_flow (narrow hd) (narrow hb) (narrow hx) hi
      obtain ⟨-, sound'', -, le'⟩ := flow.of_ok sound sound.within_univ run'
      exact ⟨u, run', sound'', le', united'⟩
  obtain ⟨t, run, -, -, united⟩ := rounds n le_rfl
  exact ⟨t, run, united⟩

/-- The record is emitted before the loop, and changes nothing. -/
theorem leaProp_of_loop (ins : ADDRINT) (hx : GprSpan a.idx a.idxStart n) (h8 : n ≤ 8)
    (run : loop n a.body s = .ok (⟨⟩, t)) :
    ∃ r, leaProp ins a.dst a.base a.baseStart a.idx a.idxStart n s = .ok (r, t) := by
  have index : gather n (fun i => gprGet a.idx (a.idxStart + i)) s =
      .ok (Vector.ofFn fun i : Fin n => s.gprFile a.idx (a.idxStart + i), s) :=
    gather_of_pure n (fun i => s.gprFile a.idx (a.idxStart + i)) fun i hi => if_pos (hx.inFile hi)
  have table : tables s = .ok (s.sets, s) := rfl
  obtain ⟨o, fields⟩ : ∃ o, tagFields
      (Vector.ofFn fun i : Fin n => s.gprFile a.idx (a.idxStart + i)).toList s.sets s =
        .ok (o, s) := ⟨_, by rw [tagFields, if_pos (by simpa using h8)]; rfl⟩
  have body_eq : (fun i => do
      let b ← gprGet a.base (a.baseStart + i)
      let x ← gprGet a.idx (a.idxStart + i)
      gprSet a.dst i (← combine b x)) = a.body := rfl
  unfold leaProp
  rw [bind_of_ok index, bind_of_ok table, bind_of_ok fields, body_eq, bind_of_ok run]
  split_ifs
  · exact ⟨_, rfl⟩
  · exact ⟨_, rfl⟩

theorem leaProp_run (ins : ADDRINT) (sound : s.Sound) (hd : GprSpan a.dst 0 n)
    (hb : GprSpan a.base a.baseStart n) (hx : GprSpan a.idx a.idxStart n) (h8 : n ≤ 8)
    (room : s.RoomFor (a.unions s n)) :
    ∃ r t, leaProp ins a.dst a.base a.baseStart a.idx a.idxStart n s = .ok (r, t) ∧
      a.United s t n := by
  obtain ⟨t, run, united⟩ := loop_run sound hd hb hx room
  obtain ⟨r, called⟩ := leaProp_of_loop ins hx h8 run
  exact ⟨r, t, called, united⟩

end LeaRows

/-! ## Address registers -/

/-- What byte `i` of an address register carries; an absent register and the bytes beyond the
register's own width carry nothing. -/
def Shadow.addrLabels (s : Shadow) (r : RegId) (i : ℕ) : Finset ℕ :=
  match regShadowSpan r with
  | some sp => if i < sp.n then s.labelsOf (.reg sp.row (sp.start + i)) else ∅
  | none => ∅

/-- What `lea_prop` finds where the address register has no byte `i`: the next bytes of its
row, or the spare row. -/
def Shadow.strayLabels (s : Shadow) (r : RegId) (i : ℕ) : Finset ℕ :=
  match regShadowSpan r with
  | some sp => if i < sp.n then ∅ else s.labelsOf (.reg sp.row (sp.start + i))
  | none => s.labelsOf (.reg GRP_NUM i)

theorem Shadow.addrLabels_union_strayLabels (s : Shadow) (r : RegId) (i : ℕ) :
    s.addrLabels r i ∪ s.strayLabels r i =
      s.labelsOf (.reg (addrRegSpan r).1 ((addrRegSpan r).2 + i)) := by
  unfold Shadow.addrLabels Shadow.strayLabels addrRegSpan
  cases regShadowSpan r with
  | none => simp
  | some sp => by_cases hi : i < sp.n <;> simp [hi]

/-- The registers of an address: a relative or absolute one has none. -/
def MemRef.baseReg (m : MemRef) : RegId := if m.baseDisp then m.base else .null

def MemRef.indexReg (m : MemRef) : RegId := if m.baseDisp then m.index else .null

/-- The first `n` bytes of the row of `g` carry what the address carries. -/
def Shadow.CarriesAddress (s t : Shadow) (g : Gpr) (n : ℕ) (m : MemRef) : Prop :=
  ∀ i < n, t.labelsOf (.reg g.row i) = s.addrLabels m.baseReg i ∪ s.addrLabels m.indexReg i

/-- The inserter handles the operand, and no byte beyond an address register brings in a label;
or it does not, and there is nothing to overwrite. -/
def Shadow.LeaClean (s : Shadow) (g : Gpr) (n : ℕ) (m : MemRef) : Prop :=
  if m.baseDisp then
    ∀ i < n, s.strayLabels m.base i ∪ s.strayLabels m.index i ⊆
      s.addrLabels m.base i ∪ s.addrLabels m.index i
  else ∀ i < n, s.labelsOf (.reg g.row i) = ∅

/-- The rows that `insert_lea` passes on. -/
def leaRows (g : Gpr) (m : MemRef) : LeaRows where
  dst := g.row
  base := (addrRegSpan m.base).1
  baseStart := (addrRegSpan m.base).2
  idx := (addrRegSpan m.index).1
  idxStart := (addrRegSpan m.index).2

section Lea

variable {cpu : Cpu} {instr : Instr} {g : Gpr} {w : RegWidth} {m : MemRef} {s : Shadow}

theorem leaRows_union (i : ℕ) : (leaRows g m).union s i =
    s.addrLabels m.base i ∪ s.addrLabels m.index i ∪
      (s.strayLabels m.base i ∪ s.strayLabels m.index i) := by
  rw [Finset.union_union_union_comm, s.addrLabels_union_strayLabels,
    s.addrLabels_union_strayLabels]
  rfl

/-- The destination and the source of an LEA. -/
structure Instr.IsLea (instr : Instr) (g : Gpr) (w : RegWidth) (m : MemRef) : Prop where
  opcode : instr.opcode = .lea
  dst : instr.dsts.head? = some (.reg (.gpr g w))
  src : instr.srcs.head? = some (.mem m)

theorem Instr.IsLea.inserted (lea : instr.IsLea g w m) : insInspectDr cpu instr =
    if m.baseDisp then
      [.leaProp instr.pc (leaRows g m).dst (leaRows g m).base (leaRows g m).baseStart
        (leaRows g m).idx (leaRows g m).idxStart w.bytes]
    else [] := by
  simp only [insInspectDr, lea.opcode, insertLea, lea.dst, lea.src, regShadowSpan_gpr]
  rfl

/-- The union is right exactly when the stray labels are not new. -/
theorem leaRows_union_iff (i : ℕ) :
    (leaRows g m).union s i = s.addrLabels m.base i ∪ s.addrLabels m.index i ↔
      s.strayLabels m.base i ∪ s.strayLabels m.index i ⊆
        s.addrLabels m.base i ∪ s.addrLabels m.index i := by
  rw [leaRows_union, Finset.union_eq_left]

theorem runCalls_singleton {app : AppView} {limitOffset : INT32} {c : CleanCall}
    {r : Option Record} {t : Shadow} (run : c.run app limitOffset s = .ok (r, t)) :
    runCalls app limitOffset [c] s = .ok (r.toList, t) := by
  rw [runCalls, bind_of_ok run]
  simp only [runCalls, pure_bind, List.append_nil]
  rfl

/-- With ids for the unions, LEA returns, and its destination carries what the address carries
if and only if the state is clean for it. -/
theorem lea_unites_iff (app : AppView) (limitOffset : INT32) (lea : instr.IsLea g w m)
    (sound : s.Sound) (room : m.baseDisp = true → s.RoomFor ((leaRows g m).unions s w.bytes)) :
    ∃ recs t, runCalls app limitOffset (insInspectDr cpu instr) s = .ok (recs, t) ∧
      (s.CarriesAddress t g w.bytes m ↔ s.LeaClean g w.bytes m) := by
  rw [lea.inserted, Shadow.LeaClean]
  have absent : ∀ i, s.addrLabels .null i = ∅ := fun i => rfl
  by_cases handled : m.baseDisp = true
  · have h8 := w.bytes_le
    have dst : GprSpan g.row 0 w.bytes := GprSpan.of_le (Nat.lt_succ_of_lt g.row_lt) (by omega)
    obtain ⟨r, t, run, united⟩ := LeaRows.leaProp_run (a := leaRows g m) instr.pc sound dst
      (addrRegSpan_gprSpan h8) (addrRegSpan_gprSpan h8) h8
      (room handled)
    rw [if_pos handled, if_pos handled]
    refine ⟨_, t, runCalls_singleton (map_of_ok run), ?_⟩
    refine forall₂_congr fun i hi => ?_
    rw [← leaRows_union_iff, ← united.bytes i hi, MemRef.baseReg, MemRef.indexReg, if_pos handled,
      if_pos handled]
    rfl
  · rw [if_neg handled, if_neg handled]
    refine ⟨[], s, rfl, ?_⟩
    refine forall₂_congr fun i _ => ?_
    rw [MemRef.baseReg, MemRef.indexReg, if_neg handled, if_neg handled, absent, Finset.union_self]

/-- The table has room for one more set a byte. -/
theorem LeaRows.roomFor {a : LeaRows} {n : ℕ} (sound : s.Sound)
    (h : s.sets.gSets.length + n ≤ idSpace) : s.RoomFor (a.unions s n) :=
  Shadow.RoomFor.of_card_le sound h (Finset.card_image_le.trans_eq (Finset.card_range n))

end Lea

/-- `[rax]`. -/
def atRax : MemRef where
  size := 0
  baseDisp := true
  base := .gpr .rax .b8
  index := .null
  scale := 0
  disp := 0
  size_le := by decide

/-- `[rip + 0x10]`. -/
def atRip : MemRef where
  size := 0
  baseDisp := false
  base := .null
  index := .null
  scale := 0
  disp := 0x10
  size_le := by decide

/-- `lea` into the 64-bit view of `g`. -/
def leaInto (g : Gpr) (m : MemRef) : Instr where
  opcode := .lea
  dsts := [.reg (.gpr g .b8)]
  srcs := [.mem m]
  predicate := .none
  pc := 0x401000

theorem leaInto_isLea (g : Gpr) (m : MemRef) : (leaInto g m).IsLea g .b8 m := ⟨rfl, rfl, rfl⟩

theorem upperTainted_roomFor (a : LeaRows) : upperTainted.RoomFor (a.unions upperTainted 8) :=
  LeaRows.roomFor upperTainted_sound (show 2 + 8 ≤ idSpace by decide)

/-- `lea rcx, [rax]` with a tainted byte 4 of RAX taints byte 4 of RCX. -/
theorem lea_unites_iff_rax : ∃ recs t,
    runCalls idleApp 4 (insInspectDr idleCpu (leaInto .rcx atRax)) upperTainted = .ok (recs, t) ∧
      upperTainted.CarriesAddress t .rcx 8 atRax := by
  obtain ⟨recs, t, run, iff⟩ : ∃ recs t,
      runCalls idleApp 4 (insInspectDr idleCpu (leaInto .rcx atRax)) upperTainted = .ok (recs, t) ∧
        (upperTainted.CarriesAddress t .rcx 8 atRax ↔ upperTainted.LeaClean .rcx 8 atRax) :=
    lea_unites_iff idleApp 4 (leaInto_isLea .rcx atRax) upperTainted_sound fun _ =>
      upperTainted_roomFor _
  refine ⟨recs, t, run, iff.mpr fun i hi => ?_⟩
  have base : upperTainted.strayLabels (.gpr .rax .b8) i = ∅ := if_pos hi
  have index : upperTainted.strayLabels .null i = ∅ :=
    (upperTainted_sound.labelsOf_eq_empty (.reg GRP_NUM i)).mpr rfl
  change upperTainted.strayLabels (.gpr .rax .b8) i ∪ upperTainted.strayLabels .null i ⊆ _
  rw [base, index]
  exact Finset.empty_subset _

/-- `lea rax, [rip + 0x10]` keeps what RAX carried. -/
theorem lea_keeps_stale :
    ¬ ∀ (cpu : Cpu) (app : AppView) (limitOffset : INT32) (instr : Instr) (g : Gpr) (w : RegWidth)
      (m : MemRef) (s t : Shadow) (recs : List Record), instr.IsLea g w m → s.Sound →
      (m.baseDisp = true → s.RoomFor ((leaRows g m).unions s w.bytes)) →
      runCalls app limitOffset (insInspectDr cpu instr) s = .ok (recs, t) →
      s.CarriesAddress t g w.bytes m := by
  intro claim
  have carries := claim idleCpu idleApp 4 _ _ _ _ _ upperTainted [] (leaInto_isLea .rax atRip)
    upperTainted_sound (fun h => by cases h) rfl
  have cleared : upperTainted.labelsOf (.reg DFT_REG_RAX 4) = ∅ := carries 4 (by decide)
  rw [upperTainted_sound.labelsOf_eq_empty] at cleared
  exact absurd cleared (by decide)

end LibdftDr
