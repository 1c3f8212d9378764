import LibdftDr.Core.Muldiv
import LibdftDr.Core.Shifts
import LibdftDr.Library.Dataflow

/-!
# What the clean calls say about data flow

`CleanCall.plan` is the data flow that a clean call stands for: which bytes take over what which
other bytes held. It knows no tags and no tables. `Enacts` says that an action does to labels
what a plan says, with the rules for actions that are put together.
-/
namespace LibdftDr
open Library Library.Action

/-- What comes into the shadow from outside: a label, or the labels of a handle. -/
inductive Input where
  | label (l : ℕ)
  | handle (t : Tag)
  deriving DecidableEq

abbrev CellPlan := Plan Cell Input

/-- `d` gets what `cs` hold. -/
def gets (d : Cell) (cs : List Cell) : Move Cell Input := ⟨d, cs.map .inl⟩

/-- A write to memory, which is dropped above the last user address. -/
def stores (addr : ADDRINT) (srcs : List (Cell ⊕ Input)) : Block Cell Input :=
  if addr ≤ lastAddress then [⟨.mem addr, srcs⟩] else []

def perByte (n : ℕ) (b : ℕ → Block Cell Input) : CellPlan := (List.range n).map b

def regAt (row start i : ℕ) : Cell := .reg row (start + i)

def memAt (addr : ADDRINT) (i : ℕ) : Cell := .mem (byteAt addr i)

/-- All of `d` get the same. -/
def fills (d : ℕ → Cell) (n : ℕ) (cs : List Cell) : Block Cell Input :=
  (List.range n).map fun i => gets (d i) cs

def firstCells (c : ℕ → Cell) (n : ℕ) : List Cell := (List.range n).map c

/-- `file_tagmap_clrn`, which does not go over the top of the address space. -/
def clears (addr : ADDRINT) (n : UINT32) : CellPlan :=
  perByte n.toNat fun i =>
    if addr.toNat + i ≤ lastAddress.toNat then [gets (memAt addr i) []] else []

/-- The accumulators take up an operand as it was at the start. -/
def spreads (n : ℕ) (src : ℕ → Cell) : Block Cell Input :=
  let onto (row i j : ℕ) := gets (.reg row i) [.reg row i, src j]
  if n = 1 then [onto DFT_REG_RAX 0 0, onto DFT_REG_RAX 1 0]
  else (List.range n).flatMap fun i => [onto DFT_REG_RDX i i, onto DFT_REG_RAX i i]

def CleanCall.plan (app : AppView) : CleanCall → CellPlan
  | .r2rXfer dr ds sr ss n => perByte n fun i => [gets (regAt dr ds i) [regAt sr ss i]]
  | .rClr r s n => perByte n fun i => [gets (regAt r s i) []]
  | .movM2r r s a n => perByte n fun i => [gets (regAt r s i) [memAt a i]]
  | .movR2m a r s n => perByte n fun i => stores (byteAt a i) [.inl (regAt r s i)]
  | .movClrMem a n => clears a (BitVec.ofNat 32 n)
  | .m2mXfer da sa n => perByte n fun i => stores (byteAt da i) [.inl (memAt sa i)]
  | .ternaryR2r r s n => [spreads n (regAt r s)]
  | .ternaryM2r a n => [spreads n (memAt a)]
  | .xchgR2r ar as' br bs n => perByte n fun i =>
    [gets (regAt ar as' i) [regAt br bs i], gets (regAt br bs i) [regAt ar as' i]]
  | .xchgM2r a r s n => perByte n fun i =>
    [gets (regAt r s i) [memAt a i], gets (memAt a i) [regAt r s i]]
  | .cmovR2r pred dr ds sr ss n =>
    if condTriggered pred app.xflags then perByte n fun i => [gets (regAt dr ds i) [regAt sr ss i]]
    else []
  | .cmovM2r pred dr ds a n =>
    if condTriggered pred app.xflags then perByte n fun i => [gets (regAt dr ds i) [memAt a i]]
    else []
  | .binaryR2r dr ds sr ss n => perByte n fun i =>
    [gets (regAt dr ds i) [regAt dr ds i, regAt sr ss i]]
  | .binaryM2r dr ds a n => perByte n fun i => [gets (regAt dr ds i) [regAt dr ds i, memAt a i]]
  | .binaryR2m a sr ss n => perByte n fun i => [gets (memAt a i) [memAt a i, regAt sr ss i]]
  | .movzxR2r dr sr ss k n => perByte k (fun i => [gets (.reg dr i) [regAt sr ss i]]) ++
    perByte (n - k) fun i => [gets (regAt dr k i) []]
  | .movzxM2r dr a k n => perByte k (fun i => [gets (.reg dr i) [memAt a i]]) ++
    perByte (n - k) fun i => [gets (regAt dr k i) []]
  | .movsxR2r dr sr ss k n =>
    if k = 0 then []
    else perByte k (fun i => [gets (.reg dr i) [regAt sr ss i]]) ++
      [fills (regAt dr k) (n - k) [.reg sr (ss + k - 1)]]
  | .movsxM2r dr a k n =>
    if k = 0 then []
    else perByte k (fun i => [gets (.reg dr i) [memAt a i]]) ++
      [fills (regAt dr k) (n - k) [.mem (byteAt a k - 1)]]
  | .leaProp _ dr br bs xr xs n => perByte n fun i =>
    [gets (.reg dr i) [regAt br bs i, regAt xr xs i]]
  | .cmpR2r .. | .cmpM2r .. | .cmpI2r .. | .cmpR2m .. | .cmpI2m .. | .cmpM2m .. => []
  | .shiftR r s n => [fills (regAt r s) n (firstCells (regAt r s) n)]
  | .shiftM a n => [fills (memAt a) n (firstCells (memAt a) n)]
  | .shldR2r dr ds sr ss n =>
    [fills (regAt dr ds) n (firstCells (regAt dr ds) n ++ firstCells (regAt sr ss) n)]
  | .bswapReg r s n => perByte (n / 2) fun i =>
    [gets (regAt r s i) [.reg r (s + n - 1 - i)], gets (.reg r (s + n - 1 - i)) [regAt r s i]]
  | .movbeM2r r s a n => perByte n fun i =>
    [gets (regAt r s i) [.mem (byteAt a n - 1 - BitVec.ofNat 64 i)]]
  | .movbeR2m a r s n => perByte n fun i => stores (byteAt a i) [.inl (.reg r (s + n - 1 - i))]
  | .cmpxchgMem a sr ss ar as' n => perByte n fun i =>
    let operands := [memAt a i, regAt sr ss i, regAt ar as' i]
    [gets (memAt a i) operands, gets (regAt ar as' i) operands]
  | .cmpxchgReg dr ds sr ss ar as' n => perByte n fun i =>
    let operands := [regAt dr ds i, regAt sr ss i, regAt ar as' i]
    [gets (regAt dr ds i) operands, gets (regAt ar as' i) operands]
  | .xaddR2r dr ds sr ss n => perByte n fun i =>
    let operands := [regAt dr ds i, regAt sr ss i]
    [gets (regAt dr ds i) operands, gets (regAt sr ss i) operands]
  | .xaddM2r a sr ss n => perByte n fun i =>
    let operands := [memAt a i, regAt sr ss i]
    [gets (memAt a i) operands, gets (regAt sr ss i) operands]

/-! ## Plans and actions -/

/-- `f` gives every cell the labels that the plan says. -/
def Enacts {α : Type} (held : Set (Tag × Finset ℕ)) (inp : Input → Finset ℕ) (p : CellPlan)
    (f : Engine α) : Prop :=
  ∀ m, byLabels.Does held m (fun _ => ∅) (p.eval inp m) f

section Enacts

variable {held : Set (Tag × Finset ℕ)} {inp : Input → Finset ℕ} {m w : Cell → Finset ℕ}
  {p q : CellPlan} {f g : Engine PUnit} {b : ℕ → Block Cell Input} {n : ℕ} {d : Cell}
  {cs : List Cell}

namespace Enacts

theorem skip {α : Type} (a : α) : Enacts held inp [] (pure a) :=
  fun _ => View.Does.pure (Set.empty_subset _)

theorem bind (hf : Enacts held inp p f) (hg : Enacts held inp q g) :
    Enacts held inp (p ++ q) (do f; g) := by
  intro m
  rw [Plan.eval_append]
  refine (hf m).bind fun _ => ?_
  rw [Set.union_empty]
  exact hg _

theorem loop {body : ℕ → Engine PUnit}
    (step : ∀ i < n, ∀ m, byLabels.Does held m (fun _ => ∅) ((b i).eval inp m) (body i)) :
    Enacts held inp (perByte n b) (loop n body) := by
  intro m
  rw [perByte, Plan.eval_range]
  exact View.Does.loop step m

/-- A loop that is known by the function of each round. -/
theorem of_rounds {step : ℕ → (Cell → Finset ℕ) → Cell → Finset ℕ}
    (does : ∀ m, byLabels.Does held m (fun _ => ∅) (rounds step n m) f)
    (same : ∀ i m, (b i).eval inp m = step i m) : Enacts held inp (perByte n b) f := by
  intro m
  have steps : (fun i => (b i).eval inp) = step := funext fun i => funext (same i)
  rw [perByte, Plan.eval_range, steps]
  exact does m

end Enacts

/-! ## What blocks do to labels -/

theorem joinOf_map_inl_append (cs ds : List Cell) :
    joinOf inp m ((cs ++ ds).map .inl) =
      joinOf inp m (cs.map .inl) ∪ joinOf inp m (ds.map .inl) := by
  rw [List.map_append, joinOf_append]
  rfl

theorem eval_gets_nil : Block.eval inp [gets d []] m = Function.update m d ∅ := rfl

theorem eval_gets_one (c : Cell) : Block.eval inp [gets d [c]] m = put d c m := by
  simp [gets, put]

theorem eval_gets_two (a c : Cell) :
    Block.eval inp [gets d [a, c]] m = Function.update m d (m a ∪ m c) := by
  simp [gets]

theorem joinOf_firstCells (c : ℕ → Cell) (n : ℕ) :
    joinOf inp m ((firstCells c n).map .inl) = allOf c n m := by
  induction n with
  | zero => rfl
  | succ n ih =>
    have last : joinOf inp m (List.map .inl [c n]) = m (c n) := by simp
    rw [firstCells, List.range_succ, List.map_append, joinOf_map_inl_append, List.map_singleton,
      last, ← firstCells, ih, allOf_succ]

theorem write_fills (c : ℕ → Cell) :
    Block.write inp m (fills c n cs) w = fill c (joinOf inp m (cs.map .inl)) n w := by
  induction n with
  | zero => rfl
  | succ n ih =>
    rw [fills, List.range_succ, List.map_append, Block.write_append, ← fills, ih]
    rfl

/-- A round of `spreads` on accumulators whose bytes `k` are still as they were. -/
theorem write_spread {k : ℕ} {src : ℕ → Cell}
    (rdx : w (.reg DFT_REG_RDX k) = m (.reg DFT_REG_RDX k))
    (rax : w (.reg DFT_REG_RAX k) = m (.reg DFT_REG_RAX k)) :
    Block.write inp m [gets (.reg DFT_REG_RDX k) [.reg DFT_REG_RDX k, src k],
        gets (.reg DFT_REG_RAX k) [.reg DFT_REG_RAX k, src k]] w =
      adjoin (.reg DFT_REG_RAX k) (m (src k)) (adjoin (.reg DFT_REG_RDX k) (m (src k)) w) := by
  have rows : DFT_REG_RAX ≠ DFT_REG_RDX := by decide
  simp [gets, adjoin, rax, rdx, rows]

theorem eval_spreads (src : ℕ → Cell) :
    Block.eval inp (spreads n src) m = spread (fun i => m (src i)) n m := by
  have rows : DFT_REG_RDX ≠ DFT_REG_RAX := by decide
  unfold spreads spread
  split_ifs with one
  · simp [Block.eval, gets, adjoin]
  · -- a byte of an accumulator is written in its own round only
    have writes : ∀ k, Block.write inp m ((List.range k).flatMap fun i =>
        [gets (.reg DFT_REG_RDX i) [.reg DFT_REG_RDX i, src i],
          gets (.reg DFT_REG_RAX i) [.reg DFT_REG_RAX i, src i]]) m =
        rounds (fun i w => adjoin (.reg DFT_REG_RAX i) (m (src i))
          (adjoin (.reg DFT_REG_RDX i) (m (src i)) w)) k m := by
      intro k
      induction k with
      | zero => rfl
      | succ k ih =>
        rw [List.range_succ, List.flatMap_append, Block.write_append, ih, List.flatMap_singleton]
        refine write_spread ?_ ?_
        · refine rounds_frame (fun i _ => spread_local i (m (src i))) fun i hi => ?_
          simp [rows]
          omega
        · refine rounds_frame (fun i _ => spread_local i (m (src i))) fun i hi => ?_
          simp [rows.symm]
          omega
    exact writes n

end Enacts

/-! ## Writes and inputs -/

section Writes

variable {held : Set (Tag × Finset ℕ)} {inp : Input → Finset ℕ} {m : Cell → Finset ℕ}
  {addr : ADDRINT} {t : Tag} {srcs : List (Cell ⊕ Input)} {α : Type} {f : Engine α}

/-- A write at any address. -/
theorem stores_does (ht : (t, joinOf inp m srcs) ∈ held) :
    byLabels.Does held m (fun _ => ∅) ((stores addr srcs).eval inp m) (setb addr t) := by
  unfold stores
  split_ifs with user
  · exact Meaning.setb_does user ht
  · intro s shows _
    refine ⟨⟨⟩, s.withTagDir (tagmapSetbWithTag s.tagDir addr t), rfl, ⟨shows.1, fun c => ?_⟩,
      SetTable.Grows.refl s.sets, by simp⟩
    have same : tagmapSetbWithTag s.tagDir addr t = s.tagDir := TagDir.setb_of_not_le _ user t
    rw [same]
    exact shows.2 c

/-- A write that takes over one source. -/
theorem stores_one_does {x : Cell ⊕ Input} (ht : (t, Sum.elim m inp x) ∈ held) :
    byLabels.Does held m (fun _ => ∅) ((stores addr [x]).eval inp m) (setb addr t) :=
  stores_does (by simpa [joinOf] using ht)

/-- An action that changes no cell. -/
theorem keeps_does_of_held {guard : Prop} {out : α → Set Tag} {known : Set Tag}
    (flow : Flow ∅ Set.univ known guard out f) (hg : guard)
    (tags : ∀ v ∈ known, ∃ w, (v, w) ∈ held) : byLabels.Does held m (fun _ => ∅) m f := by
  intro s shows denotes
  have sound : s.Sound := ⟨shows.1.1, fun c => (shows.2 c).1, shows.1.2⟩
  obtain ⟨returns, -⟩ := flow s ⟨sound, sound.within_univ⟩ fun v hv => by
    obtain ⟨w, hw⟩ := tags v hv
    exact ⟨(denotes _ hw).1, fun _ => Set.subset_univ _⟩
  obtain ⟨a, u, run, ⟨sound', -⟩, le, -⟩ := returns hg
  refine ⟨a, u, run, ⟨⟨sound'.live, sound'.exact⟩, fun c => ?_⟩, le.grows, by simp⟩
  rw [le.frame c (Set.notMem_empty c)]
  exact byLabels.mono le.grows (shows.2 c)

theorem keeps_does {guard : Prop} {out : α → Set Tag} (flow : Flow ∅ Set.univ ∅ guard out f)
    (hg : guard) : byLabels.Does held m (fun _ => ∅) m f :=
  keeps_does_of_held flow hg (by simp)

theorem setTag_does (label : UINT32) :
    byLabels.Does held m (fun t => {(t, {label.toNat})}) m (setTag label) := by
  intro s shows _
  obtain ⟨⟨live, exact'⟩, cells⟩ := shows
  obtain ⟨live', known⟩ := SetTable.tagSet_live live label
  have grows := SetTable.tagSet_grows label s.sets
  have after := fun room => SetTable.tagSet_exact (exact' (grows.length_le.trans room)) label room
  refine ⟨_, _, rfl, ⟨⟨live', fun room => (after room).1⟩, fun c => ?_⟩, grows, ?_⟩
  · rw [Shadow.cell_withSets]
    exact byLabels.mono grows (cells c)
  · rintro p rfl
    exact ⟨known, fun room => (after room).2⟩

theorem mem_dsts_clears {n : UINT32} {c : Cell} : c ∈ Plan.dsts (clears addr n) ↔
    ∃ b, c = .mem b ∧ b ≤ lastAddress ∧ addr ≤ b ∧ b < addr + n.setWidth 64 := by
  have toNat : ∀ i, addr.toNat + i ≤ lastAddress.toNat →
      (byteAt addr i).toNat = addr.toNat + i := by
    intro i hi
    have last := lastAddress.isLt
    rw [byteAt, BitVec.toNat_add, BitVec.toNat_ofNat]
    omega
  constructor
  · rintro ⟨b, hb, mv, hmv, rfl⟩
    obtain ⟨i, hi, rfl⟩ := List.mem_map.mp hb
    have hi := List.mem_range.mp hi
    split_ifs at hmv with user
    · obtain rfl := List.mem_singleton.mp hmv
      have low : byteAt addr i ≤ lastAddress := by
        rw [BitVec.le_def, toNat i user]
        exact user
      refine ⟨byteAt addr i, rfl, low, (TagDir.mem_clrn_iff n low).mpr ?_⟩
      rw [toNat i user]
      omega
    · exact absurd hmv List.not_mem_nil
  · rintro ⟨b, rfl, low, cleared⟩
    obtain ⟨lo, hi⟩ := (TagDir.mem_clrn_iff n low).mp cleared
    have user : addr.toNat + (b.toNat - addr.toNat) ≤ lastAddress.toNat := by
      rw [BitVec.le_def] at low
      omega
    have here : memAt addr (b.toNat - addr.toNat) = .mem b := by
      refine congrArg Cell.mem (BitVec.eq_of_toNat_eq ?_)
      rw [toNat _ user]
      omega
    refine ⟨_, List.mem_map.mpr ⟨b.toNat - addr.toNat, List.mem_range.mpr (by omega), if_pos user⟩,
      _, List.mem_singleton_self _, here⟩

theorem clrn_enacts (n : UINT32) : Enacts held inp (clears addr n) (clrn addr n) := by
  intro m s shows _
  refine ⟨⟨⟩, s.withTagDir (fileTagmapClrn s.tagDir addr n), rfl, ⟨shows.1, fun c => ?_⟩,
    SetTable.Grows.refl s.sets, by simp⟩
  have empty : ∀ b ∈ clears addr n, ∀ mv ∈ b, mv.srcs = [] := by
    intro b hb mv hmv
    obtain ⟨i, -, rfl⟩ := List.mem_map.mp hb
    split_ifs at hmv with user
    · rw [List.mem_singleton.mp hmv]
      rfl
    · exact absurd hmv List.not_mem_nil
  by_cases hc : c ∈ Plan.dsts (clears addr n)
  · have cleared : (s.withTagDir (fileTagmapClrn s.tagDir addr n)).cell c = clearedVal := by
      obtain ⟨b, rfl, -, range⟩ := mem_dsts_clears.mp hc
      exact (TagDir.clrn_tagAt _ _ _ _).trans (if_pos range)
    rw [Plan.eval_eq_bot empty hc, cleared]
    exact ⟨shows.1.1.knows_clearedVal, fun _ => shows.1.1.setOf_clearedVal⟩
  · have kept : (s.withTagDir (fileTagmapClrn s.tagDir addr n)).cell c = s.cell c := by
      cases c with
      | reg r b => rfl
      | mem b =>
        refine (TagDir.clrn_tagAt _ _ _ _).trans ?_
        split_ifs with range
        · by_cases low : b ≤ lastAddress
          · exact absurd (mem_dsts_clears.mpr ⟨b, rfl, low, range⟩) hc
          · exact (TagDir.tagAt_of_not_le _ low).symm
        · rfl
    rw [Plan.eval_of_not_mem hc, kept]
    exact shows.2 c

end Writes

end LibdftDr
