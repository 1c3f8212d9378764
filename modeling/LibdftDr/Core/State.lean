import LibdftDr.Library.Actions
import LibdftDr.TagMap.Directory
import LibdftDr.TagMap.Exact

/-!
# The shadow state and the actions on it

A thread's register file and the shadow memory hold tags; `Cell` names one byte of either.
Every handler is built from the accesses defined here: an index outside the register file
and a read above the last user address are faults.

`Shadow.Sound` is the invariant of every run: each cell holds an id of the set table, and the
table is exact as long as it fits the ids. `Flow` is the triple the handlers are verified
with: `D` are the cells that may change and `L` the labels that may be held.
-/
namespace LibdftDr
open Library

def DFT_REG_RDI : ℕ := 3
def DFT_REG_RSI : ℕ := 4
def DFT_REG_RBP : ℕ := 5
def DFT_REG_RSP : ℕ := 6
def DFT_REG_RBX : ℕ := 7
def DFT_REG_RDX : ℕ := 8
def DFT_REG_RCX : ℕ := 9
def DFT_REG_RAX : ℕ := 10
def DFT_REG_R8 : ℕ := 11
def DFT_REG_R9 : ℕ := 12
def DFT_REG_R10 : ℕ := 13
def DFT_REG_R11 : ℕ := 14
def DFT_REG_R12 : ℕ := 15
def DFT_REG_R13 : ℕ := 16
def DFT_REG_R14 : ℕ := 17
def DFT_REG_R15 : ℕ := 18

/-- Also the spare row, which stands for an absent register. -/
def GRP_NUM : ℕ := 43
def TAGS_PER_GPR : ℕ := 16

structure Shadow where
  sets : SetTable
  tagDir : TagDir
  gprFile : ℕ → ℕ → Tag

/-- After `tagmap_alloc` and the thread's `new thread_ctx_t()`. -/
def Shadow.new : Shadow where
  sets := tagmapAlloc
  tagDir := TagDir.new
  gprFile _ _ := clearedVal

/-- A byte of shadow state. -/
inductive Cell where
  | reg (row byte : ℕ)
  | mem (addr : ADDRINT)
  deriving DecidableEq

def Shadow.cell (s : Shadow) : Cell → Tag
  | .reg row byte => s.gprFile row byte
  | .mem addr => s.tagDir.tagAt addr

def Shadow.withSets (s : Shadow) (tb : SetTable) : Shadow := { s with sets := tb }

def Shadow.withTagDir (s : Shadow) (dir : TagDir) : Shadow := { s with tagDir := dir }

/-- `gpr_file[row][byte] = t`. -/
def Shadow.withGpr (s : Shadow) (row byte : ℕ) (t : Tag) : Shadow :=
  { s with gprFile := Function.update s.gprFile row (Function.update (s.gprFile row) byte t) }

@[simp] theorem Shadow.cell_withSets (s : Shadow) (tb : SetTable) (c : Cell) :
    (s.withSets tb).cell c = s.cell c := by cases c <;> rfl

abbrev Engine := Action Shadow Fault

/-! ## Accesses -/

/-- `addr + i` in 64 bits. -/
def byteAt (addr : ADDRINT) (i : ℕ) : ADDRINT := addr + BitVec.ofNat 64 i

/-- `row` and `byte` index `gpr_file`. -/
abbrev InFile (row byte : ℕ) : Prop := row < GRP_NUM + 1 ∧ byte < TAGS_PER_GPR

def gprGet (row byte : ℕ) : Engine Tag := fun s =>
  if InFile row byte then .ok (s.gprFile row byte, s) else .error .outOfBounds

def gprSet (row byte : ℕ) (t : Tag) : Engine PUnit := fun s =>
  if InFile row byte then .ok (⟨⟩, s.withGpr row byte t) else .error .outOfBounds

def getb (addr : ADDRINT) : Engine Tag := fun s =>
  match fileTagmapGetb s.tagDir addr with
  | .ok t => .ok (t, s)
  | .error e => .error e

def setb (addr : ADDRINT) (t : Tag) : Engine PUnit := fun s =>
  .ok (⟨⟩, s.withTagDir (tagmapSetbWithTag s.tagDir addr t))

def clrn (addr : ADDRINT) (n : UINT32) : Engine PUnit := fun s =>
  .ok (⟨⟩, s.withTagDir (fileTagmapClrn s.tagDir addr n))

def combine (l r : Tag) : Engine Tag := fun s =>
  match tagCombine l r s.sets with
  | .ok (t, tb) => .ok (t, s.withSets tb)
  | .error e => .error e

/-- `t.set(offset)` on a local tag. -/
def setTag (offset : UINT32) : Engine Tag := fun s =>
  let (t, tb) := Tag.set offset s.sets
  .ok (t, s.withSets tb)

/-- What printing and counting look at. -/
def tables : Engine SetTable := fun s => .ok (s.sets, s)

theorem combine_run {l r v : Tag} {u : Shadow} {tb : SetTable}
    (h : tagCombine l r u.sets = .ok (v, tb)) : combine l r u = .ok (v, u.withSets tb) := by
  simp only [combine, h]

/-! ## Spans -/

/-- Bytes `start` to `start + n` of a row. -/
def regSpan (row start n : ℕ) : Set Cell := {c | ∃ i < n, c = .reg row (start + i)}

def memSpan (addr : ADDRINT) (n : ℕ) : Set Cell := {c | ∃ i < n, c = .mem (byteAt addr i)}

def addrSpan (addr : ADDRINT) (n : ℕ) : Set ADDRINT := {a | ∃ i < n, a = byteAt addr i}

/-- The span lies in the register file. -/
structure GprSpan (row start n : ℕ) : Prop where
  row : row < GRP_NUM + 1
  bytes : start + n ≤ TAGS_PER_GPR

/-- No byte of the range is above the last user address. -/
def InRange (addr : ADDRINT) (n : ℕ) : Prop := ∀ i < n, byteAt addr i ≤ lastAddress

theorem inRange_iff {addr : ADDRINT} {n : ℕ} :
    InRange addr n ↔ ∀ a ∈ addrSpan addr n, a ≤ lastAddress := by
  constructor
  · rintro h a ⟨i, hi, rfl⟩
    exact h i hi
  · exact fun h i hi => h _ ⟨i, hi, rfl⟩

theorem GprSpan.inFile {row start n i : ℕ} (h : GprSpan row start n) (hi : i < n) :
    InFile row (start + i) := by
  have := h.bytes
  exact ⟨h.row, by omega⟩

/-- A register's eight bytes, also counted from its second. -/
theorem GprSpan.of_le {row start n : ℕ} (hrow : row < GRP_NUM + 1) (bytes : start + n ≤ 9) :
    GprSpan row start n := ⟨hrow, bytes.trans (by decide)⟩

theorem mem_regSpan {row start n r b : ℕ} :
    Cell.reg r b ∈ regSpan row start n ↔ r = row ∧ start ≤ b ∧ b < start + n := by
  simp only [regSpan, Set.mem_ofPred_eq, Cell.reg.injEq]
  constructor
  · rintro ⟨i, hi, rfl, rfl⟩
    omega
  · rintro ⟨rfl, lo, hi⟩
    exact ⟨b - start, by omega, rfl, by omega⟩

@[simp] theorem mem_not_mem_regSpan {row start n : ℕ} {a : ADDRINT} :
    Cell.mem a ∉ regSpan row start n := by
  rintro ⟨i, -, h⟩
  cases h

@[simp] theorem reg_not_mem_memSpan {n r b : ℕ} {addr : ADDRINT} :
    Cell.reg r b ∉ memSpan addr n := by
  rintro ⟨i, -, h⟩
  cases h

theorem mem_memSpan_self {addr : ADDRINT} {n i : ℕ} (hi : i < n) :
    Cell.mem (byteAt addr i) ∈ memSpan addr n := ⟨i, hi, rfl⟩

theorem mem_regSpan_self {row start n i : ℕ} (hi : i < n) :
    Cell.reg row (start + i) ∈ regSpan row start n := ⟨i, hi, rfl⟩

/-! ## Cells after a write -/

theorem Shadow.cell_gprSet {s t : Shadow} {row byte : ℕ} {v : Tag} {u : PUnit}
    (h : gprSet row byte v s = .ok (u, t)) :
    t.sets = s.sets ∧ ∀ c, t.cell c = if c = .reg row byte then v else s.cell c := by
  unfold gprSet at h
  split_ifs at h
  cases h
  refine ⟨rfl, fun c => ?_⟩
  cases c with
  | mem a => rfl
  | reg r b =>
    simp only [Shadow.cell, Shadow.withGpr, Cell.reg.injEq, Function.update_apply]
    split_ifs <;> simp_all

theorem Shadow.cell_setb {s t : Shadow} {addr : ADDRINT} {v : Tag} {u : PUnit}
    (h : setb addr v s = .ok (u, t)) :
    t.sets = s.sets ∧
      ∀ c, t.cell c = if c = .mem addr ∧ addr ≤ lastAddress then v else s.cell c := by
  cases h
  refine ⟨rfl, fun c => ?_⟩
  cases c with
  | reg r b => simp [Shadow.cell, Shadow.withTagDir]
  | mem a =>
    simp only [Shadow.cell, Shadow.withTagDir, Cell.mem.injEq, tagmapSetbWithTag,
      TagDir.tagAt_setb]

/-- A cleared address is one of the `n` after the first. -/
theorem mem_memSpan_of_clrn {addr b : ADDRINT} {n : UINT32} (lo : addr ≤ b)
    (hi : b < addr + n.setWidth 64) : Cell.mem b ∈ memSpan addr n.toNat := by
  refine ⟨b.toNat - addr.toNat, ?_, ?_⟩
  · simp only [BitVec.le_def, BitVec.lt_def, BitVec.toNat_add, BitVec.toNat_setWidth] at lo hi
    have := n.isLt
    have := addr.isLt
    omega
  · have := addr.isLt
    have := b.isLt
    have lo' : addr.toNat ≤ b.toNat := lo
    simp only [byteAt, Cell.mem.injEq]
    apply BitVec.eq_of_toNat_eq
    simp only [BitVec.toNat_add, BitVec.toNat_ofNat]
    omega

theorem Shadow.cell_clrn {s t : Shadow} {addr : ADDRINT} {n : UINT32} {u : PUnit}
    (h : clrn addr n s = .ok (u, t)) :
    t.sets = s.sets ∧ (∀ c, t.cell c = s.cell c ∨ t.cell c = clearedVal) ∧
      ∀ c ∉ memSpan addr n.toNat, t.cell c = s.cell c := by
  cases h
  refine ⟨rfl, fun c => ?_, fun c hc => ?_⟩
  · cases c with
    | reg r b => exact .inl rfl
    | mem a =>
      simp only [Shadow.cell, Shadow.withTagDir, TagDir.clrn_tagAt]
      split_ifs
      · exact .inr rfl
      · exact .inl rfl
  · cases c with
    | reg r b => rfl
    | mem a =>
      simp only [Shadow.cell, Shadow.withTagDir, TagDir.clrn_tagAt]
      split_ifs with hr
      · exact absurd (mem_memSpan_of_clrn hr.1 hr.2) hc
      · rfl

/-! ## The invariant -/

structure Shadow.Sound (s : Shadow) : Prop where
  live : s.sets.Live
  known : ∀ c, s.sets.Knows (s.cell c)
  exact : s.sets.gSets.length ≤ idSpace → s.sets.Exact

/-- `t` is an id of the table and denotes labels of `L` while the table fits its ids. -/
def Shadow.Holds (L : Set ℕ) (s : Shadow) (t : Tag) : Prop :=
  s.sets.Knows t ∧ (s.sets.gSets.length ≤ idSpace → ↑(s.sets.setOf t) ⊆ L)

/-- Every cell's labels are in `L`. -/
def Shadow.Within (L : Set ℕ) (s : Shadow) : Prop := ∀ c, s.Holds L (s.cell c)

/-- The labels of a byte. -/
abbrev Shadow.labelsOf (s : Shadow) (b : Cell) : Finset ℕ := s.sets.setOf (s.cell b)

/-- The labels held anywhere in register and memory shadow. -/
def Shadow.labels (s : Shadow) : Set ℕ := {l | ∃ c, l ∈ s.sets.setOf (s.cell c)}

/-- The start of the tables with nothing but empty cells. -/
theorem Shadow.sound_of_empty {s : Shadow} (sets : s.sets = tagmapAlloc)
    (empty : ∀ c, s.cell c = clearedVal) : s.Sound where
  live := sets ▸ SetTable.tagmapAlloc_exact.live
  known c := by
    rw [sets, empty]
    exact SetTable.tagmapAlloc_exact.live.knows_clearedVal
  exact _ := sets ▸ SetTable.tagmapAlloc_exact

theorem Shadow.new_sound : Shadow.new.Sound := by
  refine Shadow.sound_of_empty rfl fun c => ?_
  cases c with
  | reg r b => rfl
  | mem a => exact TagDir.tagAt_new a

theorem Shadow.Sound.within_labels {s : Shadow} (h : s.Sound) : s.Within s.labels :=
  fun c => ⟨h.known c, fun _ _ hl => ⟨c, hl⟩⟩

/-- A byte is untainted exactly when it holds id 0. -/
theorem Shadow.Sound.labelsOf_eq_empty {s : Shadow} (h : s.Sound) (c : Cell) :
    s.labelsOf c = ∅ ↔ s.cell c = clearedVal := h.live.setOf_eq_empty (h.known c)

theorem Shadow.Sound.within_univ {s : Shadow} (h : s.Sound) : s.Within Set.univ :=
  fun c => ⟨h.known c, fun _ => Set.subset_univ _⟩

theorem Shadow.Within.labels_subset {L : Set ℕ} {s : Shadow} (h : s.Within L)
    (room : s.sets.gSets.length ≤ idSpace) : s.labels ⊆ L := by
  rintro l ⟨c, hl⟩
  exact (h c).2 room hl

/-- The table has an id for each set of `u`. -/
def Shadow.RoomFor (s : Shadow) (u : Finset (Finset ℕ)) : Prop :=
  s.sets.Exact ∧ (s.sets.stored ∪ u).card ≤ idSpace

theorem Shadow.RoomFor.mono {s : Shadow} {u v : Finset (Finset ℕ)} (h : s.RoomFor v) (sub : u ⊆ v) :
    s.RoomFor u :=
  ⟨h.1, (Finset.card_le_card (Finset.union_subset_union_right sub)).trans h.2⟩

theorem Shadow.RoomFor.of_card_le {s : Shadow} {u : Finset (Finset ℕ)} (sound : s.Sound) {n : ℕ}
    (h : s.sets.gSets.length + n ≤ idSpace) (card : u.card ≤ n) : s.RoomFor u := by
  have exact' := sound.exact (by omega)
  have both := Finset.card_union_le s.sets.stored u
  have := exact'.card_stored
  exact ⟨exact', by omega⟩

/-- The table has grown and the cells outside `D` are as before. -/
structure Shadow.Le (D : Set Cell) (s t : Shadow) : Prop where
  grows : s.sets.Grows t.sets
  frame : ∀ c ∉ D, t.cell c = s.cell c

/-- A byte outside the footprint keeps its labels. -/
theorem Shadow.Le.labelsOf_eq {D : Set Cell} {s t : Shadow} (h : Shadow.Le D s t) (sound : s.Sound)
    {c : Cell} (hc : c ∉ D) : t.labelsOf c = s.labelsOf c := by
  rw [Shadow.labelsOf, h.frame c hc, h.grows.setOf (sound.known c)]

theorem Shadow.Holds.mono {L : Set ℕ} {s t : Shadow} {v : Tag} (grows : s.sets.Grows t.sets)
    (h : s.Holds L v) : t.Holds L v := by
  refine ⟨grows.knows h.1, fun room => ?_⟩
  rw [grows.setOf h.1]
  exact h.2 (grows.length_le.trans room)

theorem Shadow.Sound.holds_clearedVal {s : Shadow} (h : s.Sound) (L : Set ℕ) :
    s.Holds L clearedVal := by
  refine ⟨h.live.knows_clearedVal, fun room => ?_⟩
  simp [(h.exact room).setOf_clearedVal]

def Shadow.world (D : Set Cell) (L : Set ℕ) : World Shadow Tag where
  Ok s := s.Sound ∧ s.Within L
  Le := Shadow.Le D
  Holds := Shadow.Holds L
  refl s := ⟨SetTable.Grows.refl s.sets, fun _ _ => rfl⟩
  trans h g := ⟨h.grows.trans g.grows, fun c hc => (g.frame c hc).trans (h.frame c hc)⟩
  mono h := Shadow.Holds.mono h.grows

/-- With tags `held`, `f` returns exactly when `guard` holds, changes cells of `D` only, and
neither its result nor any cell gets a label outside `L`; else it dereferences `NULL`. -/
abbrev Flow {α : Type} (D : Set Cell) (L : Set ℕ) (held : Set Tag) (guard : Prop)
    (out : α → Set Tag) (f : Engine α) : Prop :=
  (Shadow.world D L).Triple Fault.nullDeref held guard out f

/-- A state that differs in the cells of `D`, all of whose tags hold. -/
theorem Shadow.ok_of_write (D : Set Cell) {L : Set ℕ} {s t : Shadow}
    (ok : (Shadow.world D L).Ok s) (sets : t.sets = s.sets)
    (cells : ∀ c, s.Holds L (t.cell c)) (frame : ∀ c ∉ D, t.cell c = s.cell c) :
    (Shadow.world D L).Ok t ∧ (Shadow.world D L).Le s t := by
  have holds : ∀ c, t.Holds L (t.cell c) := by
    simpa only [Shadow.Holds, sets] using cells
  exact ⟨⟨⟨sets ▸ ok.1.live, fun c => (holds c).1, sets ▸ ok.1.exact⟩, holds⟩,
    ⟨sets ▸ SetTable.Grows.refl _, frame⟩⟩

section Conclusions

variable {D D' : Set Cell} {L : Set ℕ} {held : Set Tag} {guard : Prop} {α : Type}
  {out : α → Set Tag} {f : Engine α} {s t : Shadow} {a : α}

theorem Flow.mono (h : Flow D L held guard out f) (sub : D ⊆ D') : Flow D' L held guard out f := by
  intro s ok holds
  obtain ⟨returns, faults⟩ := h s ok holds
  refine ⟨fun hg => ?_, faults⟩
  obtain ⟨a, t, run, ok', le, vals⟩ := returns hg
  exact ⟨a, t, run, ok', ⟨le.grows, fun c hc => le.frame c fun hD => hc (sub hD)⟩, vals⟩

/-- What a return says about the states before and after. -/
theorem Flow.of_ok_of_holds (h : Flow D L held guard out f) (sound : s.Sound) (within : s.Within L)
    (holds : ∀ v ∈ held, s.Holds L v) (run : f s = .ok (a, t)) :
    guard ∧ t.Sound ∧ t.Within L ∧ Shadow.Le D s t := by
  obtain ⟨returns, faults⟩ := h s ⟨sound, within⟩ holds
  by_cases hg : guard
  · obtain ⟨b, u, run', ok, le, -⟩ := returns hg
    obtain ⟨rfl, rfl⟩ : b = a ∧ u = t := by simpa [run] using run'.symm
    exact ⟨hg, ok.1, ok.2, le⟩
  · rw [faults hg] at run
    cases run

/-- The values of the result hold in the state after. -/
theorem Flow.holds_out (h : Flow D L held guard out f) (sound : s.Sound) (within : s.Within L)
    (holds : ∀ v ∈ held, s.Holds L v) (run : f s = .ok (a, t)) : ∀ v ∈ out a, t.Holds L v := by
  obtain ⟨returns, faults⟩ := h s ⟨sound, within⟩ holds
  by_cases hg : guard
  · obtain ⟨b, u, run', -, -, vals⟩ := returns hg
    obtain ⟨rfl, rfl⟩ : b = a ∧ u = t := by simpa [run] using run'.symm
    exact vals
  · rw [faults hg] at run
    cases run

theorem Flow.of_ok (h : Flow D L ∅ guard out f) (sound : s.Sound) (within : s.Within L)
    (run : f s = .ok (a, t)) : guard ∧ t.Sound ∧ t.Within L ∧ Shadow.Le D s t :=
  h.of_ok_of_holds sound within (by simp) run

end Conclusions

section Rules

variable {D : Set Cell} {L : Set ℕ} {held : Set Tag}

theorem gprGet_flow {row byte : ℕ} (h : InFile row byte) :
    Flow D L held True (fun t => {t}) (gprGet row byte) := by
  intro s ok _
  refine ⟨fun _ => ⟨s.gprFile row byte, s, by simp [gprGet, h], ok, (Shadow.world D L).refl s, ?_⟩,
    fun hn => absurd trivial hn⟩
  rintro v rfl
  exact ok.2 (.reg row byte)

/-- A read in range gives the tag of the byte. -/
theorem getb_of_le {addr : ADDRINT} (h : addr ≤ lastAddress) (s : Shadow) :
    getb addr s = .ok (s.cell (.mem addr), s) := by
  rw [getb, TagDir.getb_of_le _ h]
  rfl

theorem getb_flow (addr : ADDRINT) :
    Flow D L held (addr ≤ lastAddress) (fun t => {t}) (getb addr) := by
  intro s ok _
  refine ⟨fun h => ⟨_, s, getb_of_le h s, ok, (Shadow.world D L).refl s, ?_⟩, fun h => ?_⟩
  · rintro v rfl
    exact ok.2 (.mem addr)
  · simp [getb, TagDir.getb_of_not_le _ h]

theorem gprSet_flow {row byte : ℕ} {t : Tag} (h : InFile row byte) (ht : t ∈ held)
    (hD : Cell.reg row byte ∈ D) : Flow D L held True (fun _ => ∅) (gprSet row byte t) := by
  intro s ok holds
  refine ⟨fun _ => ?_, fun hn => absurd trivial hn⟩
  obtain ⟨s', run⟩ : ∃ s', gprSet row byte t s = .ok (⟨⟩, s') := ⟨_, if_pos h⟩
  obtain ⟨sets, cells⟩ := Shadow.cell_gprSet run
  obtain ⟨ok', le⟩ := Shadow.ok_of_write D ok sets
    (fun c => by rw [cells]; split_ifs; exacts [holds t ht, ok.2 c])
    (fun c hc => by rw [cells, if_neg]; rintro rfl; exact hc hD)
  exact ⟨⟨⟩, _, run, ok', le, by simp⟩

theorem setb_flow {addr : ADDRINT} {t : Tag} (ht : t ∈ held) (hD : Cell.mem addr ∈ D) :
    Flow D L held True (fun _ => ∅) (setb addr t) := by
  intro s ok holds
  refine ⟨fun _ => ?_, fun hn => absurd trivial hn⟩
  have run : setb addr t s = .ok (⟨⟩, _) := rfl
  obtain ⟨sets, cells⟩ := Shadow.cell_setb run
  obtain ⟨ok', le⟩ := Shadow.ok_of_write D ok sets
    (fun c => by rw [cells]; split_ifs; exacts [holds t ht, ok.2 c])
    (fun c hc => by rw [cells, if_neg]; rintro ⟨rfl, -⟩; exact hc hD)
  exact ⟨⟨⟩, _, run, ok', le, by simp⟩

theorem clrn_flow {addr : ADDRINT} {n : UINT32} (hD : memSpan addr n.toNat ⊆ D) :
    Flow D L held True (fun _ => ∅) (clrn addr n) := by
  intro s ok _
  refine ⟨fun _ => ?_, fun hn => absurd trivial hn⟩
  have run : clrn addr n s = .ok (⟨⟩, _) := rfl
  obtain ⟨sets, cells, frame⟩ := Shadow.cell_clrn run
  obtain ⟨ok', le⟩ := Shadow.ok_of_write D ok sets
    (fun c => by
      obtain h | h := cells c
      · rw [h]; exact ok.2 c
      · rw [h]; exact ok.1.holds_clearedVal L)
    (fun c hc => frame c fun h => hc (hD h))
  exact ⟨⟨⟩, _, run, ok', le, by simp⟩

theorem clearedVal_flow {α : Type} {out : α → Set Tag} {guard : Prop} {f : Engine α}
    (h : Flow D L (held ∪ {clearedVal}) guard out f) : Flow D L held guard out f := by
  intro s ok holds
  refine h s ok ?_
  rintro v (hv | rfl)
  · exact holds v hv
  · exact ok.1.holds_clearedVal L

theorem tables_flow : Flow D L held True (fun _ => ∅) tables :=
  fun s ok _ => ⟨fun _ => ⟨s.sets, s, rfl, ok, (Shadow.world D L).refl s, by simp⟩,
    fun hn => absurd trivial hn⟩

/-- A larger table under the same cells. -/
theorem Shadow.ok_of_grow (D : Set Cell) {s : Shadow} {tb : SetTable} (ok : (Shadow.world D L).Ok s)
    (grows : s.sets.Grows tb) (live : tb.Live) (exact : tb.gSets.length ≤ idSpace → tb.Exact) :
    (Shadow.world D L).Ok (s.withSets tb) ∧ (Shadow.world D L).Le s (s.withSets tb) := by
  refine ⟨⟨⟨live, fun c => ?_, exact⟩, fun c => ?_⟩, ⟨grows, fun c _ => s.cell_withSets tb c⟩⟩
  · rw [Shadow.cell_withSets]; exact grows.knows (ok.1.known c)
  · rw [Shadow.cell_withSets]; exact (ok.2 c).mono grows

theorem combine_flow {l r : Tag} (hl : l ∈ held) (hr : r ∈ held) :
    Flow D L held True (fun t => {t}) (combine l r) := by
  intro s ok holds
  refine ⟨fun _ => ?_, fun hn => absurd trivial hn⟩
  obtain ⟨kl, sl⟩ := holds l hl
  obtain ⟨kr, sr⟩ := holds r hr
  obtain ⟨t, tb, run, live, known⟩ := SetTable.tagCombine_live ok.1.live kl kr
  have grows := SetTable.tagCombine_grows run
  have exact' : tb.gSets.length ≤ idSpace →
      tb.Exact ∧ tb.Knows t ∧ tb.setOf t = s.sets.setOf l ∪ s.sets.setOf r := fun room =>
    SetTable.tagCombine_exact (ok.1.exact (grows.length_le.trans room)) kl kr run room
  obtain ⟨ok', le⟩ := Shadow.ok_of_grow D ok grows live fun room => (exact' room).1
  refine ⟨t, _, by simp only [combine, run], ok', le, ?_⟩
  rintro v rfl
  refine ⟨known, fun room => ?_⟩
  have before := grows.length_le.trans room
  change ↑(tb.setOf v) ⊆ L
  rw [(exact' room).2.2, Finset.coe_union]
  exact Set.union_subset (sl before) (sr before)

theorem setTag_flow {offset : UINT32} (hL : offset.toNat ∈ L) :
    Flow D L held True (fun t => {t}) (setTag offset) := by
  intro s ok holds
  refine ⟨fun _ => ?_, fun hn => absurd trivial hn⟩
  obtain ⟨live, known⟩ := SetTable.tagSet_live ok.1.live offset
  have grows := SetTable.tagSet_grows offset s.sets
  have exact' := fun room =>
    SetTable.tagSet_exact (ok.1.exact (grows.length_le.trans room)) offset room
  obtain ⟨ok', le⟩ := Shadow.ok_of_grow D ok grows live fun room => (exact' room).1
  refine ⟨_, _, rfl, ok', le, ?_⟩
  rintro v rfl
  refine ⟨known, fun room => ?_⟩
  change ↑((Tag.set offset s.sets).2.setOf (Tag.set offset s.sets).1) ⊆ L
  rw [(exact' room).2]
  simpa using hL

end Rules

end LibdftDr
