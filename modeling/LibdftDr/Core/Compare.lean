import LibdftDr.Core.Handlers

/-!
# The comparing handlers and LEA

CMP and CMPS change no shadow byte; LEA also propagates. Each gathers the tags of its operand
bytes and, if its gate lets a byte through, builds the record it hands to `emit_cmp` or
`emit_lea`. The handlers here return that record, if there is one; `Sinks/Records` writes it.
-/
namespace LibdftDr
open Library Library.Action

/-- `"0x%lx"`. -/
def hexstr (v : UINT64) : Text := '0' :: 'x' :: Nat.toDigits 16 v.toNat

/-- Readable application memory; `none` where a read faults. -/
abbrev AppMem := ADDRINT → Option UINT8

/-- Little-endian; 0 if any byte is unreadable. -/
def readMemVal (mem : AppMem) (addr : ADDRINT) (size : ℕ) : UINT64 :=
  match (List.range size).mapM fun i => mem (byteAt addr i) with
  | none => 0
  | some bytes => bytes.foldr (fun b v => (v <<< 8) ||| b.setWidth 64) 0

/-! ## Records -/

/-- The 21 fields of a `cmp.out` line, with the operand tags that go to the sinks. -/
structure CmpRecord where
  width : Text
  operands : Text
  ins : Text
  /-- Fields 3 to 10. -/
  dest : List Text
  /-- Fields 11 to 18. -/
  src : List Text
  dval : Text
  sval : Text
  operandTags : List Tag
  pc : ADDRINT

/-- The 10 fields of a `lea.out` line, with the index tags. -/
structure LeaRecord where
  width : Text
  kind : Text
  /-- Fields 2 to 9. -/
  index : List Text
  operandTags : List Tag
  pc : ADDRINT

def CmpRecord.fields (o : CmpRecord) : List Text :=
  [o.width, o.operands, o.ins] ++ o.dest ++ o.src ++ [o.dval, o.sval]

def LeaRecord.fields (o : LeaRecord) : List Text := [o.width, o.kind] ++ o.index

/-- What the vector of fields holds before anything is written to it. -/
def noTag : Text := ['{', '}']

/-- Eight tag fields. The handlers' operands have at most eight bytes; a ninth would run into
the fields after these. -/
def tagFields (tags : List Tag) (tb : SetTable) : Engine (List Text) :=
  if tags.length ≤ 8 then
    pure (tags.map (tagSprint · tb) ++ List.replicate (8 - tags.length) noTag)
  else fail .outOfBounds

/-- The value field of the handlers that know all four widths. -/
def valueField (size : ℕ) (v : UINT64) : Text :=
  match size with
  | 8 => hexstr v
  | 4 => hexstr ((v.setWidth 32).setWidth 64)
  | 2 => hexstr ((v.setWidth 16).setWidth 64)
  | 1 => hexstr ((v.setWidth 8).setWidth 64)
  | _ => noTag

/-- The value field of the immediate handlers: an eight-byte operand shows its low half. -/
def valueField32 (size : ℕ) (v : UINT64) : Text :=
  match size with
  | 8 | 4 => hexstr ((v.setWidth 32).setWidth 64)
  | 2 => hexstr ((v.setWidth 16).setWidth 64)
  | 1 => hexstr ((v.setWidth 8).setWidth 64)
  | _ => noTag

/-- As `valueField32`, with memory read at the width that is shown. -/
def memField32 (mem : AppMem) (size : ℕ) (addr : ADDRINT) : Text :=
  match size with
  | 8 | 4 => hexstr (((readMemVal mem addr 4).setWidth 32).setWidth 64)
  | 2 => hexstr (((readMemVal mem addr 2).setWidth 16).setWidth 64)
  | 1 => hexstr (((readMemVal mem addr 1).setWidth 8).setWidth 64)
  | _ => noTag

/-! ## CMP -/

def fillRegTags (row start size : ℕ) : Engine (Vector Tag size) :=
  gather size fun i => gprGet row (start + i)

def fillMemTags (addr : ADDRINT) (size : ℕ) : Engine (Vector Tag size) :=
  gather size fun i => getb (byteAt addr i)

/-- The gate of the five CMP handlers. -/
def anyTag (t : Tag) (_ : SetTable) : Bool := tagCount t

/-- The gate of CMPS, `numberOfOnes` in `(0, (size_t)limit_offset]`. -/
def withinLimit (limitOffset : INT32) (t : Tag) (tb : SetTable) : Bool :=
  let n := (t.numberOfOnes tb).setWidth 64
  decide (0 < n) && decide (n ≤ limitOffset.signExtend 64)

/-- The loop and the branch that the six handlers share: all tag fields are filled, and there
is a record if the gate let a byte of either operand through. -/
def compare (ins : ADDRINT) (size : ℕ) (operands : Text) (gate : Tag → SetTable → Bool)
    (dest src : List Tag) (dval sval : Text) : Engine (Option CmpRecord) := do
  let tb ← tables
  let d ← tagFields dest tb
  let s ← tagFields src tb
  if (dest ++ src).any (gate · tb) then
    pure (some ⟨decimal (size * 8), operands, hexstr ins, d, s, dval, sval, dest ++ src, ins⟩)
  else pure none

def cmpR2r (ins : ADDRINT) (dRow dStart : ℕ) (dval : UINT64) (sRow sStart : ℕ) (sval : UINT64)
    (size : ℕ) : Engine (Option CmpRecord) := do
  let dest ← fillRegTags dRow dStart size
  let src ← fillRegTags sRow sStart size
  compare ins size "reg reg".toList anyTag dest.toList src.toList
    (valueField size dval) (valueField size sval)

def cmpM2r (mem : AppMem) (ins : ADDRINT) (dRow dStart : ℕ) (dval : UINT64) (srcAddr : ADDRINT)
    (size : ℕ) : Engine (Option CmpRecord) := do
  let dest ← fillRegTags dRow dStart size
  -- only the first byte is tested before all of them are read
  if fileTagTestb srcAddr then
    let src ← fillMemTags srcAddr size
    compare ins size "reg mem".toList anyTag dest.toList src.toList
      (valueField size dval) (valueField size (readMemVal mem srcAddr size))
  else pure none

def cmpI2r (ins : ADDRINT) (dRow dStart : ℕ) (dval : UINT64) (imm : UINT32) (size : ℕ) :
    Engine (Option CmpRecord) := do
  let dest ← fillRegTags dRow dStart size
  compare ins size "reg imm".toList anyTag dest.toList []
    (valueField32 size dval) (valueField32 size (imm.setWidth 64))

def cmpR2m (mem : AppMem) (ins : ADDRINT) (destAddr : ADDRINT) (sRow sStart : ℕ) (sval : UINT64)
    (size : ℕ) : Engine (Option CmpRecord) :=
  if fileTagTestb destAddr then do
    let dest ← fillMemTags destAddr size
    let src ← fillRegTags sRow sStart size
    compare ins size "mem reg".toList anyTag dest.toList src.toList
      (valueField size (readMemVal mem destAddr size)) (valueField size sval)
  else pure none

def cmpI2m (mem : AppMem) (ins : ADDRINT) (destAddr : ADDRINT) (imm : UINT32) (size : ℕ) :
    Engine (Option CmpRecord) :=
  if fileTagTestb destAddr then do
    let dest ← fillMemTags destAddr size
    compare ins size "mem imm".toList anyTag dest.toList []
      (memField32 mem size destAddr) (hexstr (imm.setWidth 64))
  else pure none

/-- CMPS. -/
def cmpM2m (mem : AppMem) (limitOffset : INT32) (ins : ADDRINT) (destAddr srcAddr : ADDRINT)
    (size : ℕ) : Engine (Option CmpRecord) :=
  if fileTagTestb destAddr && fileTagTestb srcAddr then do
    let dest ← fillMemTags destAddr size
    let src ← fillMemTags srcAddr size
    compare ins size "mem mem".toList (withinLimit limitOffset) dest.toList src.toList
      (memField32 mem size destAddr) (memField32 mem size srcAddr)
  else pure none

/-! ## LEA -/

/-- The record is emitted before the destination is written. -/
def leaProp (ins : ADDRINT) (dstRow baseRow baseStart idxRow idxStart size : ℕ) :
    Engine (Option LeaRecord) := do
  let idxTags ← gather size fun i => gprGet idxRow (idxStart + i)
  let tb ← tables
  let o ← tagFields idxTags.toList tb
  loop size fun i => do
    let b ← gprGet baseRow (baseStart + i)
    let x ← gprGet idxRow (idxStart + i)
    gprSet dstRow i (← combine b x)
  if idxTags.toList.any tagCount then
    pure (some ⟨decimal (size * 8), "baseidx".toList, o, idxTags.toList, ins⟩)
  else pure none

/-! ## What they do -/

section Flows

variable {D : Set Cell} {L : Set ℕ} {held : Set Tag} {size : ℕ}

theorem fileTagTestb_iff {addr : ADDRINT} : fileTagTestb addr = true ↔ addr ≤ lastAddress := by
  simp [fileTagTestb, BitVec.not_lt]

theorem tagFields_flow {tags : List Tag} (tb : SetTable) (h : tags.length ≤ 8) :
    Flow D L held True (fun _ => ∅) (tagFields tags tb) := by
  rw [tagFields, if_pos h]
  exact World.Triple.pure (Set.empty_subset _)

theorem skip_flow {α : Type} (a : α) : Flow D L held True (fun _ => ∅) (pure a : Engine α) :=
  World.Triple.pure (Set.empty_subset _)

/-- The branch that ends a comparing handler. -/
theorem orNone_flow {α : Type} {c : Prop} [Decidable c] (a : α) :
    Flow D L held True (fun _ => ∅)
      (if c then pure (some a) else pure none : Engine (Option α)) := by
  split_ifs
  · exact skip_flow (some a)
  · exact skip_flow none

/-- A handler that looks at its operands only after a test. -/
theorem tested_flow {α : Type} {c : Prop} [Decidable c] {guard : Prop} {f : Engine (Option α)}
    (h : Flow D L held guard (fun _ => ∅) f) :
    Flow D L held (c → guard) (fun _ => ∅) (if c then f else pure none) := by
  refine World.Triple.guard_iff (World.Triple.ite (fun _ => h) fun _ => skip_flow none) ?_
  split_ifs with hc <;> simp [hc]

theorem compare_flow {ins : ADDRINT} {operands dval sval : Text} {gate : Tag → SetTable → Bool}
    {dest src : List Tag} (hd : dest.length ≤ 8) (hs : src.length ≤ 8) :
    Flow D L held True (fun _ => ∅) (compare ins size operands gate dest src dval sval) := by
  refine World.Triple.guard_iff (tables_flow.bind fun tb => (tagFields_flow tb hd).bind fun d =>
    (tagFields_flow tb hs).bind fun s => orNone_flow _) (by simp)

theorem fillRegTags_flow {row start : ℕ} (h : GprSpan row start size) :
    Flow D L held True (fun _ => ∅) (fillRegTags row start size) :=
  ((World.Triple.gather fun i hi => gprGet_flow (h.inFile hi)).guard_iff (by simp)).drop

theorem fillMemTags_flow (addr : ADDRINT) :
    Flow D L held (InRange addr size) (fun _ => ∅) (fillMemTags addr size) :=
  (World.Triple.gather fun i (_ : i < size) => getb_flow (byteAt addr i)).drop

variable {ins addr dstAddr srcAddr : ADDRINT} {dRow dStart sRow sStart : ℕ} {dval sval : UINT64}
  {imm : UINT32} {mem : AppMem} {limitOffset : INT32}

theorem cmpR2r_flow (hd : GprSpan dRow dStart size) (hs : GprSpan sRow sStart size)
    (h8 : size ≤ 8) : Flow D L held True (fun _ => ∅)
      (cmpR2r ins dRow dStart dval sRow sStart sval size) :=
  ((fillRegTags_flow hd).bind fun dest => (fillRegTags_flow hs).bind fun src =>
    compare_flow (by simpa) (by simpa)).guard_iff (by simp)

theorem cmpM2r_flow (hd : GprSpan dRow dStart size) (h8 : size ≤ 8) :
    Flow D L held (addr ≤ lastAddress → InRange addr size) (fun _ => ∅)
      (cmpM2r mem ins dRow dStart dval addr size) := by
  refine World.Triple.guard_iff ((fillRegTags_flow hd).bind fun dest =>
    tested_flow ((fillMemTags_flow addr).bind fun src =>
      compare_flow (by simpa) (by simpa))) ?_
  simp [fileTagTestb_iff]

theorem cmpI2r_flow (hd : GprSpan dRow dStart size) (h8 : size ≤ 8) :
    Flow D L held True (fun _ => ∅) (cmpI2r ins dRow dStart dval imm size) :=
  ((fillRegTags_flow hd).bind fun dest => compare_flow (by simpa) (by simp)).guard_iff (by simp)

theorem cmpR2m_flow (hs : GprSpan sRow sStart size) (h8 : size ≤ 8) :
    Flow D L held (addr ≤ lastAddress → InRange addr size) (fun _ => ∅)
      (cmpR2m mem ins addr sRow sStart sval size) := by
  refine World.Triple.guard_iff (tested_flow ((fillMemTags_flow addr).bind fun dest =>
    (fillRegTags_flow hs).bind fun src => compare_flow (by simpa) (by simpa))) ?_
  simp [fileTagTestb_iff]

theorem cmpI2m_flow (h8 : size ≤ 8) :
    Flow D L held (addr ≤ lastAddress → InRange addr size) (fun _ => ∅)
      (cmpI2m mem ins addr imm size) := by
  refine World.Triple.guard_iff (tested_flow ((fillMemTags_flow addr).bind fun dest =>
    compare_flow (by simpa) (by simp))) ?_
  simp [fileTagTestb_iff]

theorem cmpM2m_flow (h8 : size ≤ 8) :
    Flow D L held
      (dstAddr ≤ lastAddress ∧ srcAddr ≤ lastAddress → InRange dstAddr size ∧ InRange srcAddr size)
      (fun _ => ∅) (cmpM2m mem limitOffset ins dstAddr srcAddr size) := by
  refine World.Triple.guard_iff (tested_flow ((fillMemTags_flow dstAddr).bind fun dest =>
    (fillMemTags_flow srcAddr).bind fun src => compare_flow (by simpa) (by simpa))) ?_
  simp [fileTagTestb_iff]

/-- One byte of the destination of LEA. -/
theorem leaByte_flow {dstRow baseRow baseStart idxRow idxStart i : ℕ} (hd : GprSpan dstRow 0 size)
    (hb : GprSpan baseRow baseStart size) (hx : GprSpan idxRow idxStart size) (hi : i < size) :
    Flow (regSpan dstRow 0 size) L held True (fun _ => ∅) (do
      let b ← gprGet baseRow (baseStart + i)
      let x ← gprGet idxRow (idxStart + i)
      gprSet dstRow i (← combine b x)) := by
  have file : InFile dstRow i := by simpa using hd.inFile hi
  exact ((gprGet_flow (hb.inFile hi)).bind fun b => (gprGet_flow (hx.inFile hi)).bind fun x =>
    (combine_flow (by simp) (by simp)).bind fun u =>
    gprSet_flow file (by simp) (mem_regSpan.mpr (by omega))).guard_iff (by simp)

theorem leaProp_flow {dstRow baseRow baseStart idxRow idxStart : ℕ} (hd : GprSpan dstRow 0 size)
    (hb : GprSpan baseRow baseStart size) (hi : GprSpan idxRow idxStart size) (h8 : size ≤ 8) :
    Flow (regSpan dstRow 0 size) L held True (fun _ => ∅)
      (leaProp ins dstRow baseRow baseStart idxRow idxStart size) := by
  have propagate : ∀ {held : Set Tag}, Flow (regSpan dstRow 0 size) L held True (fun _ => ∅)
      (loop size fun i => do
        let b ← gprGet baseRow (baseStart + i)
        let x ← gprGet idxRow (idxStart + i)
        gprSet dstRow i (← combine b x)) :=
    World.Triple.loop_of_true fun i h => leaByte_flow hd hb hi h
  have index : Flow (regSpan dstRow 0 size) L held True (fun _ => ∅)
      (gather size fun i => gprGet idxRow (idxStart + i)) := fillRegTags_flow hi
  refine World.Triple.guard_iff (index.bind fun idxTags => tables_flow.bind fun tb =>
    (tagFields_flow tb (by simpa)).bind fun o => propagate.bind fun _ => orNone_flow _) (by simp)

end Flows

end LibdftDr
