import LibdftDr.Library.Sparse
import LibdftDr.TagMap.SetTable

/-!
# The shadow-memory directory

A three-level table of tags: directory, table, page. Tables and pages are allocated by the
first write. Writes above the last user address are ignored; the lookup answers `NULL`
there, and `tag_dir_getb` dereferences what the lookup answers.

`TagDir.tagAt` is the flat map the directory stands for.
-/
namespace LibdftDr
open Library

def PAGE_SIZE : ℕ := 4096
def PAGE_BITS : ℕ := 12
def TOP_DIR_SZ : ℕ := 0x800000
def PAGETABLE_SZ : ℕ := 0x1000
def PAGETABLE_BITS : ℕ := 24
def OFFSET_MASK : UINT64 := 0x00000FFF
def PAGETABLE_OFFSET_MASK : UINT64 := 0x00FFFFFF

/-- The bound that `tag_dir_setb`, `tag_dir_getb_as_ptr` and `file_tag_testb` compare with. -/
def lastAddress : ADDRINT := 0x7fffffffffff

def virt2pagetable (addr : ADDRINT) : ℕ := (addr >>> PAGETABLE_BITS).toNat
def virt2page (addr : ADDRINT) : ℕ := ((addr &&& PAGETABLE_OFFSET_MASK) >>> PAGE_BITS).toNat
def virt2offset (addr : ADDRINT) : ℕ := (addr &&& OFFSET_MASK).toNat

theorem virt2pagetable_eq (addr : ADDRINT) : virt2pagetable addr = addr.toNat / 2 ^ 24 := by
  simp [virt2pagetable, PAGETABLE_BITS, Nat.shiftRight_eq_div_pow]

theorem virt2page_eq (addr : ADDRINT) : virt2page addr = addr.toNat % 2 ^ 24 / 2 ^ 12 := by
  simp only [virt2page, PAGE_BITS, PAGETABLE_OFFSET_MASK, BitVec.toNat_ushiftRight,
    BitVec.toNat_and, Nat.shiftRight_eq_div_pow]
  exact congrArg (· / 2 ^ 12) (Nat.and_two_pow_sub_one_eq_mod addr.toNat 24)

theorem virt2offset_eq (addr : ADDRINT) : virt2offset addr = addr.toNat % 2 ^ 12 := by
  simp only [virt2offset, OFFSET_MASK, BitVec.toNat_and]
  exact Nat.and_two_pow_sub_one_eq_mod addr.toNat 12

theorem virt2pagetable_lt {addr : ADDRINT} (h : addr ≤ lastAddress) :
    virt2pagetable addr < TOP_DIR_SZ := by
  have : addr.toNat ≤ 0x7fffffffffff := h
  rw [virt2pagetable_eq, TOP_DIR_SZ]
  omega

theorem virt2page_lt (addr : ADDRINT) : virt2page addr < PAGETABLE_SZ := by
  rw [virt2page_eq, PAGETABLE_SZ]
  omega

theorem virt2offset_lt (addr : ADDRINT) : virt2offset addr < PAGE_SIZE := by
  rw [virt2offset_eq, PAGE_SIZE]
  omega

/-- The three indices determine the address. -/
theorem virt2_injective {a b : ADDRINT} (table : virt2pagetable a = virt2pagetable b)
    (page : virt2page a = virt2page b) (offset : virt2offset a = virt2offset b) : a = b := by
  rw [virt2pagetable_eq, virt2pagetable_eq] at table
  rw [virt2page_eq, virt2page_eq] at page
  rw [virt2offset_eq, virt2offset_eq] at offset
  exact BitVec.eq_of_toNat_eq (by omega)

structure TagPage where
  tag : Fin PAGE_SIZE → Tag

structure TagTable where
  page : Sparse (Fin PAGETABLE_SZ) TagPage

structure TagDir where
  table : Sparse (Fin TOP_DIR_SZ) TagTable

/-- `new tag_page_t()`: value-initialised, every tag has id 0. -/
def TagPage.new : TagPage := ⟨fun _ => clearedVal⟩

def TagTable.new : TagTable := ⟨Sparse.unallocated⟩

/-- The zero-initialised directory. -/
def TagDir.new : TagDir := ⟨Sparse.unallocated⟩

def tagDirSetb (dir : TagDir) (addr : ADDRINT) (tag : Tag) : TagDir :=
  if h : addr ≤ lastAddress then
    { table := dir.table.modify TagTable.new ⟨virt2pagetable addr, virt2pagetable_lt h⟩ fun table =>
      { page := table.page.modify TagPage.new ⟨virt2page addr, virt2page_lt addr⟩ fun page =>
        { tag := Function.update page.tag ⟨virt2offset addr, virt2offset_lt addr⟩ tag } } }
  else dir

/-- `none` is the `NULL` the source returns; otherwise the tag that is pointed to. -/
def tagDirGetbAsPtr (dir : TagDir) (addr : ADDRINT) : Option Tag :=
  if h : addr ≤ lastAddress then
    match dir.table ⟨virt2pagetable addr, virt2pagetable_lt h⟩ with
    | none => some clearedVal
    | some table =>
      match table.page ⟨virt2page addr, virt2page_lt addr⟩ with
      | none => some clearedVal
      | some page => some (page.tag ⟨virt2offset addr, virt2offset_lt addr⟩)
  else none

/-- Dereferences the lookup unconditionally. -/
def tagDirGetb (dir : TagDir) (addr : ADDRINT) : Except Fault Tag :=
  match tagDirGetbAsPtr dir addr with
  | none => .error .nullDeref
  | some tag => .ok tag

def tagmapSetbWithTag (dir : TagDir) (addr : ADDRINT) (tag : Tag) : TagDir :=
  tagDirSetb dir addr tag

def fileTagmapClrb (dir : TagDir) (addr : ADDRINT) : TagDir :=
  tagmapSetbWithTag dir addr clearedVal

/-- The loop of `file_tagmap_clrn`: `i` runs up to `stop`. -/
def clearUpTo (dir : TagDir) (i stop : ADDRINT) : TagDir :=
  if i < stop then clearUpTo (fileTagmapClrb dir i) (i + 1) stop else dir
termination_by stop.toNat - i.toNat
decreasing_by
  have step := toNat_add_one_of_lt (by assumption : i < stop)
  have : i.toNat < stop.toNat := by assumption
  omega

/-- `addr + n` is computed in 64 bits, so a range that runs over the top clears nothing. -/
def fileTagmapClrn (dir : TagDir) (addr : ADDRINT) (n : UINT32) : TagDir :=
  clearUpTo dir addr (addr + n.setWidth 64)

def fileTagmapGetb (dir : TagDir) (addr : ADDRINT) : Except Fault Tag := tagDirGetb dir addr

def fileTagTestb (addr : ADDRINT) : Bool := !decide (lastAddress < addr)

/-! ## The flat map -/

namespace TagDir

/-- The tag the directory holds for an address; addresses it does not hold read as empty. -/
def tagAt (dir : TagDir) (addr : ADDRINT) : Tag := (tagDirGetbAsPtr dir addr).getD clearedVal

/-- In range, the directory is one array behind three indices. -/
theorem tagAt_eq (dir : TagDir) {addr : ADDRINT} (h : addr ≤ lastAddress) :
    dir.tagAt addr =
      (((dir.table.read TagTable.new ⟨virt2pagetable addr, virt2pagetable_lt h⟩).page).read
        TagPage.new ⟨virt2page addr, virt2page_lt addr⟩).tag
          ⟨virt2offset addr, virt2offset_lt addr⟩ := by
  simp only [TagDir.tagAt, tagDirGetbAsPtr, h, dite_true]
  cases ht : dir.table ⟨virt2pagetable addr, virt2pagetable_lt h⟩ with
  | none => simp [Sparse.read, ht, TagTable.new, TagPage.new, Sparse.unallocated]
  | some table =>
    cases hp : table.page ⟨virt2page addr, virt2page_lt addr⟩ with
    | none => simp [Sparse.read, ht, hp, TagPage.new]
    | some page => simp [Sparse.read, ht, hp]

@[simp] theorem tagAt_new (addr : ADDRINT) : TagDir.new.tagAt addr = clearedVal := by
  by_cases h : addr ≤ lastAddress
  · rw [tagAt_eq _ h]; rfl
  · simp [TagDir.tagAt, tagDirGetbAsPtr, h]

theorem tagAt_of_not_le (dir : TagDir) {addr : ADDRINT} (h : ¬ addr ≤ lastAddress) :
    dir.tagAt addr = clearedVal := by
  simp [TagDir.tagAt, tagDirGetbAsPtr, h]

theorem setb_of_not_le (dir : TagDir) {addr : ADDRINT} (h : ¬ addr ≤ lastAddress) (tag : Tag) :
    tagDirSetb dir addr tag = dir := by
  simp [tagDirSetb, h]

/-- A write is seen at its own address and nowhere else. -/
theorem tagAt_setb (dir : TagDir) (addr b : ADDRINT) (tag : Tag) :
    (tagDirSetb dir addr tag).tagAt b =
      if b = addr ∧ addr ≤ lastAddress then tag else dir.tagAt b := by
  by_cases h : addr ≤ lastAddress
  · by_cases hb : b ≤ lastAddress
    · simp only [tagAt_eq _ hb, tagDirSetb, h, dite_true, and_true, Sparse.read_modify,
        Fin.mk.injEq]
      split_ifs with htable hsame hsame
      · subst hsame; simp
      · simp only [Sparse.read_modify, Fin.mk.injEq]
        split_ifs with hpage
        · have hoffset : virt2offset b ≠ virt2offset addr :=
            fun e => hsame (virt2_injective htable hpage e)
          simp only [Function.update_apply, Fin.mk.injEq, hoffset, if_false, htable, hpage]
        · simp [htable]
      · exact absurd (hsame ▸ rfl) htable
      · rfl
    · have hne : b ≠ addr := fun e => hb (e ▸ h)
      simp [tagAt_of_not_le _ hb, hne]
  · simp [setb_of_not_le dir h, h]

theorem getb_of_le (dir : TagDir) {addr : ADDRINT} (h : addr ≤ lastAddress) :
    fileTagmapGetb dir addr = .ok (dir.tagAt addr) := by
  have found : (tagDirGetbAsPtr dir addr).isSome := by
    simp only [tagDirGetbAsPtr, h, dite_true]
    split
    · rfl
    · split <;> rfl
  obtain ⟨t, ht⟩ := Option.isSome_iff_exists.mp found
  simp [fileTagmapGetb, tagDirGetb, TagDir.tagAt, ht]

/-- A read above the last user address dereferences `NULL`. -/
theorem getb_of_not_le (dir : TagDir) {addr : ADDRINT} (h : ¬ addr ≤ lastAddress) :
    fileTagmapGetb dir addr = .error .nullDeref := by
  simp [fileTagmapGetb, tagDirGetb, tagDirGetbAsPtr, h]

theorem clearUpTo_tagAt (dir : TagDir) (i stop b : ADDRINT) :
    (clearUpTo dir i stop).tagAt b = if i ≤ b ∧ b < stop then clearedVal else dir.tagAt b := by
  fun_induction clearUpTo dir i stop with
  | case1 dir i hlt ih =>
    have above : i + 1 ≤ b ↔ i ≤ b ∧ b ≠ i := by
      simp only [BitVec.le_def, toNat_add_one_of_lt hlt, ne_eq, ← BitVec.toNat_inj]
      omega
    rw [ih, fileTagmapClrb, tagmapSetbWithTag, tagAt_setb]
    by_cases hb : b = i
    · subst hb
      by_cases hr : b ≤ lastAddress
      · simp [hr, hlt]
      · simp [hr, tagAt_of_not_le]
    · simp only [above, hb, ne_eq, not_false_eq_true, and_true, false_and, if_false]
  | case2 dir i hlt =>
    have none : ¬ (i ≤ b ∧ b < stop) := by
      rintro ⟨hi, hb⟩
      exact hlt (Nat.lt_of_le_of_lt hi hb)
    simp [none]

theorem clrn_tagAt (dir : TagDir) (addr b : ADDRINT) (n : UINT32) :
    (fileTagmapClrn dir addr n).tagAt b =
      if addr ≤ b ∧ b < addr + n.setWidth 64 then clearedVal else dir.tagAt b :=
  clearUpTo_tagAt dir addr _ b

/-- In range, the 64-bit loop bound is the natural one. -/
theorem mem_clrn_iff {addr b : ADDRINT} (n : UINT32) (h : b ≤ lastAddress) :
    addr ≤ b ∧ b < addr + n.setWidth 64 ↔
      addr.toNat ≤ b.toNat ∧ b.toNat < addr.toNat + n.toNat := by
  have hb : b.toNat ≤ 0x7fffffffffff := h
  have hn := n.isLt
  have ha := addr.isLt
  simp only [BitVec.le_def, BitVec.lt_def, BitVec.toNat_add, BitVec.toNat_setWidth]
  omega

/-- A clear that starts above the last user address finds nothing to clear. -/
theorem clearUpTo_of_not_le (dir : TagDir) {i : ADDRINT} (h : ¬ i ≤ lastAddress) (stop : ADDRINT) :
    clearUpTo dir i stop = dir := by
  fun_induction clearUpTo dir i stop with
  | case1 dir i hlt ih =>
    have above : ¬ i + 1 ≤ lastAddress := by
      simp only [BitVec.le_def, toNat_add_one_of_lt hlt] at h ⊢
      omega
    rw [ih above]
    exact setb_of_not_le dir h clearedVal
  | case2 => rfl

end TagDir

/-! ## Sequences of writes -/

inductive DirCall where
  | setb (addr : ADDRINT) (tag : Tag)
  | clrb (addr : ADDRINT)
  | clrn (addr : ADDRINT) (n : UINT32)

def DirCall.apply (dir : TagDir) : DirCall → TagDir
  | .setb addr tag => tagmapSetbWithTag dir addr tag
  | .clrb addr => fileTagmapClrb dir addr
  | .clrn addr n => fileTagmapClrn dir addr n

/-- What a call writes to `b` when it is meant for a flat map, if it writes there at all. -/
def DirCall.wrote (b : ADDRINT) : DirCall → Option Tag
  | .setb addr tag => if b = addr then some tag else none
  | .clrb addr => if b = addr then some clearedVal else none
  | .clrn addr n =>
    if addr.toNat ≤ b.toNat ∧ b.toNat < addr.toNat + n.toNat then some clearedVal else none

/-- The last write to `b`, or the empty tag. -/
def lastWrite (calls : List DirCall) (b : ADDRINT) : Tag :=
  (calls.reverse.findSome? (DirCall.wrote b)).getD clearedVal

theorem DirCall.tagAt_apply (dir : TagDir) (c : DirCall) {b : ADDRINT} (h : b ≤ lastAddress) :
    (c.apply dir).tagAt b = (c.wrote b).getD (dir.tagAt b) := by
  have write : ∀ addr tag, (tagDirSetb dir addr tag).tagAt b =
      (if b = addr then some tag else none).getD (dir.tagAt b) := by
    intro addr tag
    rw [TagDir.tagAt_setb]
    by_cases hb : b = addr
    · subst hb; simp [h]
    · simp [hb]
  cases c with
  | setb addr tag => exact write addr tag
  | clrb addr => exact write addr clearedVal
  | clrn addr n =>
    simp only [DirCall.apply, DirCall.wrote, TagDir.clrn_tagAt, TagDir.mem_clrn_iff n h]
    split_ifs <;> rfl

theorem tagAt_foldl_apply (calls : List DirCall) {b : ADDRINT} (h : b ≤ lastAddress) :
    (calls.foldl DirCall.apply TagDir.new).tagAt b = lastWrite calls b := by
  induction calls using List.reverseRecOn with
  | nil => simp [lastWrite]
  | append_singleton calls c ih =>
    rw [List.foldl_append, List.foldl_cons, List.foldl_nil, DirCall.tagAt_apply _ _ h, ih]
    simp only [lastWrite, List.reverse_append, List.reverse_singleton, List.singleton_append,
      List.findSome?_cons]
    cases c.wrote b <;> rfl

/-- The directory is a flat map: an address it covers reads as its last write, all three
indices stay inside their arrays, and a write above the last user address changes nothing. -/
theorem directory_refines_flat_map (calls : List DirCall) (addr : ADDRINT) :
    (addr ≤ lastAddress →
      fileTagmapGetb (calls.foldl DirCall.apply TagDir.new) addr = .ok (lastWrite calls addr) ∧
      virt2pagetable addr < TOP_DIR_SZ ∧ virt2page addr < PAGETABLE_SZ ∧
      virt2offset addr < PAGE_SIZE) ∧
    (lastAddress < addr → ∀ dir tag n, tagmapSetbWithTag dir addr tag = dir ∧
      fileTagmapClrb dir addr = dir ∧ fileTagmapClrn dir addr n = dir) := by
  constructor
  · intro h
    rw [TagDir.getb_of_le _ h, tagAt_foldl_apply calls h]
    exact ⟨rfl, virt2pagetable_lt h, virt2page_lt addr, virt2offset_lt addr⟩
  · intro h dir tag n
    have above : ¬ addr ≤ lastAddress := Nat.not_le.mpr h
    exact ⟨TagDir.setb_of_not_le dir above tag, TagDir.setb_of_not_le dir above clearedVal,
      TagDir.clearUpTo_of_not_le dir above _⟩

/-- The unit test's T5: two writes, then the buffer is cleared. -/
theorem directory_refines_flat_map_synthetic :
    fileTagmapGetb ([DirCall.setb 0x7fff0000 ⟨1⟩, .setb 0x7fff0004 ⟨2⟩, .clrn 0x7fff0000 4].foldl
      DirCall.apply TagDir.new) 0x7fff0004 = .ok ⟨2⟩ ∧
    fileTagmapGetb ([DirCall.setb 0x7fff0000 ⟨1⟩, .setb 0x7fff0004 ⟨2⟩, .clrn 0x7fff0000 16].foldl
      DirCall.apply TagDir.new) 0x7fff0004 = .ok clearedVal :=
  ⟨((directory_refines_flat_map _ _).1 (by decide)).1,
    ((directory_refines_flat_map _ _).1 (by decide)).1⟩

end LibdftDr
