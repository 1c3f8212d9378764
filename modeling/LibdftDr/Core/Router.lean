import LibdftDr.Core.Operands

/-!
# The opcode router

`insInspectDr` is the list of clean calls that the instrumentation inserts before an
instruction, with the values its arguments have when the instruction executes. The inserters
pick the operands and their spans.
-/
namespace LibdftDr

/-! ## Inserters -/

def insertR2rXfer (dst src : RegId) : List CleanCall :=
  match regShadowSpan dst, regShadowSpan src with
  | some d, some s => [.r2rXfer d.row d.start s.row s.start (min d.n s.n)]
  | _, _ => []

def insertRClr (dst : RegId) : List CleanCall :=
  match regShadowSpan dst with
  | some d => [.rClr d.row d.start d.n]
  | none => []

def memRefs (os : List Opnd) : List MemRef :=
  os.filterMap fun
    | .mem m => some m
    | _ => none

def gprRegs (os : List Opnd) : List RegId :=
  os.filterMap fun
    | .reg r => if r.regIsGpr then some r else none
    | _ => none

/-- `acquire_mem_addr` around one clean call. -/
def withMemAddr (cpu : Cpu) (mem : MemRef) (call : ADDRINT → CleanCall) : List CleanCall :=
  if cpu.scratch then [call (cpu.ea mem)] else []

/-- `acquire_mem_addr2` around one clean call. -/
def withMemAddr2 (cpu : Cpu) (m1 m2 : MemRef) (call : ADDRINT → ADDRINT → CleanCall) :
    List CleanCall :=
  if cpu.scratch then [call (cpu.ea m1) (cpu.ea m2)] else []

def insertMovM2r (cpu : Cpu) (dst : RegId) (mem : MemRef) : List CleanCall :=
  match regShadowSpan dst with
  | some d => withMemAddr cpu mem fun addr => .movM2r d.row d.start addr d.n
  | none => []

def insertMovR2m (cpu : Cpu) (mem : MemRef) (src : RegId) : List CleanCall :=
  match regShadowSpan src with
  | some s => withMemAddr cpu mem fun addr => .movR2m addr s.row s.start s.n
  | none => []

def insertMovClrMem (cpu : Cpu) (mem : MemRef) : List CleanCall :=
  if mem.size = 0 then [] else withMemAddr cpu mem fun addr => .movClrMem addr mem.size

/-- The first destination that is memory or a general purpose register. -/
def findDataDst (instr : Instr) : Option Opnd :=
  instr.dsts.find? fun o => o.isMemoryReference || o.isGprReg

def sameDataOpnd (a b : Opnd) : Bool :=
  match a, b with
  | .reg r, .reg s => decide (r = s)
  | .mem _, .mem _ => true
  | _, _ => false

/-- The opcodes whose same-register form is a zeroing idiom. -/
def Opcode.isZeroing : Opcode → Bool
  | .xor | .sub | .sbb => true
  | _ => false

/-- The source that is not the destination read back; the destination if there is none. -/
def findOtherSrc (instr : Instr) (op0 : Opnd) : Opnd :=
  (instr.srcs.find? fun s => s.isImmed || !sameDataOpnd s op0).getD op0

def insertBinary (cpu : Cpu) (instr : Instr) (opcode : Opcode) : List CleanCall :=
  match findDataDst instr with
  | none => []
  | some op0 =>
    match op0, findOtherSrc instr op0 with
    | _, .immed _ => []
    | .reg r0, .reg r1 =>
      if opcode.isZeroing && decide (r0 = r1) then insertRClr r0
      else
        match regShadowSpan r0, regShadowSpan r1 with
        | some d, some s => [.binaryR2r d.row d.start s.row s.start (min d.n s.n)]
        | _, _ => []
    | .reg r0, .mem m =>
      match regShadowSpan r0 with
      | some d => withMemAddr cpu m fun addr => .binaryM2r d.row d.start addr d.n
      | none => []
    | .mem m, .reg r1 =>
      match regShadowSpan r1 with
      | some s => withMemAddr cpu m fun addr => .binaryR2m addr s.row s.start s.n
      | none => []
    | _, _ => []

def insertExtend (cpu : Cpu) (instr : Instr) (sign : Bool) : List CleanCall :=
  match instr.dsts.head?, instr.srcs.head? with
  | some (.reg rd), some s =>
    match regShadowSpan rd, s with
    | some d, .reg rs =>
      match regShadowSpan rs with
      | some s =>
        [if sign then .movsxR2r d.row s.row s.start s.n d.n
          else .movzxR2r d.row s.row s.start s.n d.n]
      | none => []
    | some d, .mem m =>
      if m.size = 0 then []
      else withMemAddr cpu m fun addr =>
        if sign then .movsxM2r d.row addr m.size d.n else .movzxM2r d.row addr m.size d.n
    | _, _ => []
  | _, _ => []

def isStackPtrReg : RegId → Bool
  | .gpr .rsp .b8 | .gpr .rsp .b4 | .gpr .rsp .b2 => true
  | _ => false

def insertM2mXfer (cpu : Cpu) (dstMem srcMem : MemRef) (n : ℕ) : List CleanCall :=
  if n = 0 then [] else withMemAddr2 cpu dstMem srcMem fun d s => .m2mXfer d s n

def insertPush (cpu : Cpu) (instr : Instr) : List CleanCall :=
  match (memRefs instr.dsts).head? with
  | none => []
  | some mem =>
    (instr.srcs.findSome? fun
      | .reg r => if isStackPtrReg r then none else some (insertMovR2m cpu mem r)
      | .immed _ => some (insertMovClrMem cpu mem)
      | .mem s => some (insertM2mXfer cpu mem s mem.size)
      | .other => none).getD []

def insertPop (cpu : Cpu) (instr : Instr) : List CleanCall :=
  match (memRefs instr.srcs).head? with
  | none => []
  | some mem =>
    (instr.dsts.findSome? fun
      | .reg r => if r.regIsGpr && !isStackPtrReg r then some (insertMovM2r cpu r mem) else none
      | .mem d => some (insertM2mXfer cpu d mem d.size)
      | _ => none).getD []

/-- The operand based on RSI is the source, whatever the order of the two. -/
def insertCmps (cpu : Cpu) (instr : Instr) : List CleanCall :=
  match memRefs instr.srcs with
  | m0 :: m1 :: _ =>
    let swapped := decide (m0.base = .gpr .rsi .b8) || decide (m0.base = .gpr .rsi .b4)
    let dst := if swapped then m1 else m0
    let src := if swapped then m0 else m1
    if dst.size = 0 then []
    else withMemAddr2 cpu dst src fun d s => .cmpM2m instr.pc d s dst.size
  | _ => []

def insertLeave (cpu : Cpu) (instr : Instr) : List CleanCall :=
  insertR2rXfer (.gpr .rsp .b8) (.gpr .rbp .b8) ++
    match (memRefs instr.srcs).head? with
    | some m => insertMovM2r cpu (.gpr .rbp .b8) m
    | none => []

/-- BSF and BSR are treated as a MOV. -/
def insertXfer (cpu : Cpu) (instr : Instr) : List CleanCall :=
  match instr.dsts.head?, instr.srcs.head? with
  | some (.reg d), some (.reg s) => insertR2rXfer d s
  | some (.reg d), some (.mem m) => insertMovM2r cpu d m
  | _, _ => []

def insertCwdeFamily (instr : Instr) : List CleanCall :=
  match instr.dsts.head? with
  | some (.reg d) =>
    if d.sizeInBytes < 2 then []
    else [.r2rXfer DFT_REG_RAX (d.sizeInBytes / 2) DFT_REG_RAX 0 (d.sizeInBytes / 2)]
  | _ => []

def insertCdqFamily (instr : Instr) : List CleanCall :=
  match instr.dsts.head? with
  | some (.reg d) =>
    if d.sizeInBytes = 0 then [] else [.r2rXfer DFT_REG_RDX 0 DFT_REG_RAX 0 d.sizeInBytes]
  | _ => []

/-- The first source that is memory or a register other than the accumulators. -/
def findExplicitOperand (instr : Instr) : Option Opnd :=
  instr.srcs.find? fun
    | .mem _ => true
    | .reg r => decide (r.regToPointerSized ≠ .gpr .rax .b8) &&
        decide (r.regToPointerSized ≠ .gpr .rdx .b8)
    | _ => false

def insertMuldiv (cpu : Cpu) (instr : Instr) : List CleanCall :=
  match findExplicitOperand instr with
  | some (.reg r) =>
    match regShadowSpan r with
    | some s => [.ternaryR2r s.row s.start s.n]
    | none => []
  | some (.mem m) =>
    if m.size = 0 then [] else withMemAddr cpu m fun addr => .ternaryM2r addr m.size
  | _ => []

/-- Some destination is a view of `g`. -/
def hasDst (instr : Instr) (g : Gpr) : Bool :=
  instr.dsts.any fun
    | .reg r => r.regIsGpr && decide (r.regToPointerSized = .gpr g .b8)
    | _ => false

def insertImul (cpu : Cpu) (instr : Instr) : List CleanCall :=
  if hasDst instr .rax && hasDst instr .rdx then insertMuldiv cpu instr
  else insertBinary cpu instr .imul

/-- With two registers the second is the last of the list, as the source overwrites `r1`. -/
def insertXchg (cpu : Cpu) (instr : Instr) : List CleanCall :=
  match memRefs instr.dsts, gprRegs instr.dsts with
  | [], r0 :: r :: rs =>
    match regShadowSpan r0, regShadowSpan ((r :: rs).getLast (List.cons_ne_nil r rs)) with
    | some a, some b => [.xchgR2r a.row a.start b.row b.start (min a.n b.n)]
    | _, _ => []
  | [m], r0 :: _ =>
    match regShadowSpan r0 with
    | some s => withMemAddr cpu m fun addr => .xchgM2r addr s.row s.start s.n
    | none => []
  | _, _ => []

def insertLea (instr : Instr) : List CleanCall :=
  match instr.dsts.head?, instr.srcs.head? with
  | some (.reg rd), some (.mem m) =>
    match regShadowSpan rd with
    | some d =>
      if m.baseDisp then
        let b := addrRegSpan m.base
        let i := addrRegSpan m.index
        [.leaProp instr.pc d.row b.1 b.2 i.1 i.2 d.n]
      else []
    | none => []
  | _, _ => []

def insertCmov (cpu : Cpu) (instr : Instr) : List CleanCall :=
  match instr.dsts.head? with
  | some (.reg dst) =>
    match regShadowSpan dst with
    | none => []
    | some d =>
      (instr.srcs.findSome? fun
        | .mem m =>
          some (withMemAddr cpu m fun addr => .cmovM2r instr.predicate d.row d.start addr d.n)
        | .reg r =>
          if r.regIsGpr && decide (r ≠ dst) then
            match regShadowSpan r with
            | some s => some [.cmovR2r instr.predicate d.row d.start s.row s.start (min d.n s.n)]
            | none => some []
          else none
        | _ => none).getD []
  | _ => []

def insertCmp (cpu : Cpu) (instr : Instr) : List CleanCall :=
  match instr.srcs with
  | .reg r0 :: op1 :: _ =>
    match regShadowSpan r0 with
    | none => []
    | some d =>
      let size := r0.sizeInBytes
      match op1 with
      | .reg r1 =>
        match regShadowSpan r1 with
        | some s =>
          [.cmpR2r instr.pc d.row d.start (cpu.regVal r0) s.row s.start (cpu.regVal r1) size]
        | none => []
      | .mem m =>
        withMemAddr cpu m fun addr => .cmpM2r instr.pc d.row d.start (cpu.regVal r0) addr size
      | .immed v => [.cmpI2r instr.pc d.row d.start (cpu.regVal r0) (v.setWidth 32) size]
      | .other => []
  | .mem m :: op1 :: _ =>
    if m.size = 0 then []
    else
      match op1 with
      | .reg r1 =>
        match regShadowSpan r1 with
        | some s => withMemAddr cpu m fun addr =>
            .cmpR2m instr.pc addr s.row s.start (cpu.regVal r1) m.size
        | none => []
      | .immed v => withMemAddr cpu m fun addr => .cmpI2m instr.pc addr (v.setWidth 32) m.size
      | _ => []
  | _ => []

def insertShift (cpu : Cpu) (instr : Instr) : List CleanCall :=
  match instr.dsts.head? with
  | some (.reg r) =>
    match regShadowSpan r with
    | some d => [.shiftR d.row d.start d.n]
    | none => []
  | some (.mem m) => withMemAddr cpu m fun addr => .shiftM addr m.size
  | _ => []

/-- The funnel source is the first other register; the count is left out only if it is no
register before it. -/
def insertShldShrd (instr : Instr) : List CleanCall :=
  match instr.dsts.head? with
  | some (.reg dst) =>
    if instr.srcs.length < 2 then []
    else
      match regShadowSpan dst with
      | none => []
      | some d =>
        match (gprRegs instr.srcs).findSome? fun r => if r ≠ dst then regShadowSpan r else none with
        | some s => [.shldR2r d.row d.start s.row s.start (min d.n s.n)]
        | none => [.shiftR d.row d.start d.n]
  | _ => []

def insertBswap (instr : Instr) : List CleanCall :=
  match instr.dsts.head? with
  | some (.reg r) =>
    match regShadowSpan r with
    | some d => if d.n < 2 then [] else [.bswapReg d.row d.start d.n]
    | none => []
  | _ => []

def insertMovbe (cpu : Cpu) (instr : Instr) : List CleanCall :=
  match instr.dsts.head?, instr.srcs.head? with
  | some (.reg r), some (.mem m) =>
    match regShadowSpan r with
    | some d => withMemAddr cpu m fun addr => .movbeM2r d.row d.start addr d.n
    | none => []
  | some (.mem m), some (.reg r) =>
    match regShadowSpan r with
    | some s => withMemAddr cpu m fun addr => .movbeR2m addr s.row s.start s.n
    | none => []
  | _, _ => []

def isAccum (r : RegId) : Bool := decide (r.regToPointerSized = .gpr .rax .b8)

def Opnd.regOrNull : Opnd → RegId
  | .reg r => r
  | _ => .null

def insertCmpxchg (cpu : Cpu) (instr : Instr) : List CleanCall :=
  match instr.dsts.head? with
  | none => []
  | some d =>
    let accumReg := (gprRegs instr.srcs).find? isAccum
    let srcReg := (gprRegs instr.srcs).find? fun r => !isAccum r && decide (r ≠ d.regOrNull)
    match srcReg.bind regShadowSpan, accumReg.bind regShadowSpan with
    | some s, some a =>
      let n := if d.sizeInBytes = 0 then s.n else d.sizeInBytes
      match d with
      | .mem m => withMemAddr cpu m fun addr => .cmpxchgMem addr s.row s.start a.row a.start n
      | .reg rd =>
        match regShadowSpan rd with
        | some d => [.cmpxchgReg d.row d.start s.row s.start a.row a.start n]
        | none => []
      | _ => []
    | _, _ => []

def insertXadd (cpu : Cpu) (instr : Instr) : List CleanCall :=
  match instr.dsts with
  | d :: .reg rs :: _ =>
    match regShadowSpan rs with
    | none => []
    | some s =>
      match d with
      | .reg rd =>
        match regShadowSpan rd with
        | some d => [.xaddR2r d.row d.start s.row s.start (min d.n s.n)]
        | none => []
      | .mem m => withMemAddr cpu m fun addr => .xaddM2r addr s.row s.start s.n
      | _ => []
  | _ => []

def insertMovs (cpu : Cpu) (instr : Instr) : List CleanCall :=
  match instr.dsts.head?, instr.srcs.head? with
  | some (.mem d), some (.mem s) => insertM2mXfer cpu d s d.size
  | _, _ => []

def insertStos (cpu : Cpu) (instr : Instr) : List CleanCall :=
  match instr.dsts.head?, (gprRegs instr.srcs).find? isAccum with
  | some (.mem d), some accum => insertMovR2m cpu d accum
  | _, _ => []

def insertLods (cpu : Cpu) (instr : Instr) : List CleanCall :=
  match instr.srcs.head?, (gprRegs instr.dsts).find? isAccum with
  | some (.mem s), some accum => insertMovM2r cpu accum s
  | _, _ => []

def insertMovLd (cpu : Cpu) (instr : Instr) : List CleanCall :=
  match instr.dsts.head?, instr.srcs.head? with
  | some (.reg d), some (.reg s) => insertR2rXfer d s
  | some (.reg d), some (.mem m) => insertMovM2r cpu d m
  | _, _ => []

def insertMovSt (cpu : Cpu) (instr : Instr) : List CleanCall :=
  match instr.dsts.head?, instr.srcs.head? with
  | some (.mem m), some (.reg s) => insertMovR2m cpu m s
  | some (.mem m), some (.immed _) => insertMovClrMem cpu m
  | some (.reg d), some (.reg s) => insertR2rXfer d s
  | some (.reg d), some (.immed _) => insertRClr d
  | _, _ => []

def insertMovImm (instr : Instr) : List CleanCall :=
  match instr.dsts.head? with
  | some (.reg d) => insertRClr d
  | _ => []

def insInspectDr (cpu : Cpu) (instr : Instr) : List CleanCall :=
  match instr.opcode with
  | .movLd => insertMovLd cpu instr
  | .movSt => insertMovSt cpu instr
  | .movImm => insertMovImm instr
  | .cmp => insertCmp cpu instr
  | .add | .and | .or | .xor | .sub | .sbb => insertBinary cpu instr instr.opcode
  | .movzx => insertExtend cpu instr false
  | .movsx | .movsxd => insertExtend cpu instr true
  | .lea => insertLea instr
  | .push => insertPush cpu instr
  | .pop => insertPop cpu instr
  | .cmps => insertCmps cpu instr
  | .leave => insertLeave cpu instr
  | .bsf | .bsr => insertXfer cpu instr
  | .cwde => insertCwdeFamily instr
  | .cdq => insertCdqFamily instr
  | .mul | .div | .idiv => insertMuldiv cpu instr
  | .imul => insertImul cpu instr
  | .xchg => insertXchg cpu instr
  | .cmovcc => insertCmov cpu instr
  | .shl | .shr | .sar | .rol | .ror | .rcl | .rcr => insertShift cpu instr
  | .shld | .shrd => insertShldShrd instr
  | .bswap => insertBswap instr
  | .movbe => insertMovbe cpu instr
  | .cmpxchg => insertCmpxchg cpu instr
  | .xadd => insertXadd cpu instr
  | .movs => insertMovs cpu instr
  | .stos => insertStos cpu instr
  | .lods => insertLods cpu instr
  | .other => []

end LibdftDr
