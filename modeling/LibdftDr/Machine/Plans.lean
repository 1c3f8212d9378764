import LibdftDr.Core.Enacting
import LibdftDr.Machine.Events
import LibdftDr.Sdft.Values

/-!
# Runs as data flow

Summaries, post-syscall hooks and the calls of the public interface stand for plans as well, so a
run of the engine is one plan, made from its events without looking at the shadow.
`run_labels_iff` says that a byte carries a label at the end exactly if one of the sources that
the plan has for it brings the label in: a byte that carried it at the start, a file offset that
was painted, or a handle that a client passed.
-/
namespace LibdftDr
open Library Library.Action

/-! ## Summaries -/

def clobbers : Block Cell Input := callerSaved.flatMap fun row => fills (.reg row) TAGS_PER_GPR []

def raxGets (cs : List Cell) : Block Cell Input := fills (.reg DFT_REG_RAX) 8 cs

/-- What an argument points to. -/
def Summary.pointee (mem : AppMem) (av : ArgVals) (sum : Summary) (i : ℤ) : List Cell :=
  match argVal av i with
  | none => []
  | some p => if p = 0 then [] else firstCells (memAt p) (propLen mem sum av p)

/-- An argument register. -/
def argCells (i : ℤ) : List Cell :=
  match argToReg i with
  | none => []
  | some row => firstCells (.reg row) 8

def Summary.ptr2ptrPlan (mem : AppMem) (av : ArgVals) (sum : Summary) : CellPlan :=
  match sum.src with
  | [] => [clobbers]
  | i :: _ =>
    let src := (argVal av i).getD 0
    let dst := ptr2ptrDst sum av
    let n := propLen mem sum av src
    (if dst ≠ 0 ∧ src ≠ 0 then
      perByte n (fun i => stores (byteAt dst i) [.inl (memAt src i)]) ++
        if 0 < n then [raxGets [.mem dst]] else []
      else []) ++
    ([clobbers] ++ if dst ≠ 0 ∧ 0 < n then [raxGets [.mem dst]] else [])

/-- What a summary does to labels. A value is gathered before the registers are clobbered. -/
def Summary.plan (mem : AppMem) (av : ArgVals) (sum : Summary) : CellPlan :=
  match sum.shape with
  | .source | .sourceRetPtr | .clobberOnly => [clobbers]
  | .propPtr2ptr => sum.ptr2ptrPlan mem av
  | .propPtr2val => [clobbers ++ raxGets (sum.src.flatMap (sum.pointee mem av))]
  | .propScalar => [clobbers ++ raxGets (sum.args.flatMap argCells)]
  | .invalid => []

section Summaries

variable {held : Set (Tag × Finset ℕ)} {inp : Input → Finset ℕ} {m w : Cell → Finset ℕ}
  {mem : AppMem} {av : ArgVals} {sum : Summary} {cs : List Cell} {t : Tag} {l : ℕ}

theorem mem_joinOf_inl (inp : Input → Finset ℕ) :
    l ∈ joinOf inp m (cs.map .inl) ↔ ∃ c ∈ cs, l ∈ m c := by
  induction cs with
  | nil => simp
  | cons c cs ih => simp [ih]

theorem clobber_does : byLabels.Does held w (fun _ => ∅) (Block.write inp m clobbers w)
    clobberCallerSaved := by
  have rows : ∀ (l : List ℕ) w, (∀ row ∈ l, row < GRP_NUM + 1) →
      byLabels.Does held w (fun _ => ∅)
        (Block.write inp m (l.flatMap fun row => fills (.reg row) TAGS_PER_GPR []) w)
        (each l (fun row _ => loop TAGS_PER_GPR fun b => gprSet row b clearedVal) ⟨⟩) := by
    intro l
    induction l with
    | nil => exact fun w _ => View.Does.pure (Set.empty_subset _)
    | cons row l ih =>
      intro w inFile
      have first : byLabels.Does held w (fun _ => ∅)
          (Block.write inp m (fills (.reg row) TAGS_PER_GPR []) w)
          (loop TAGS_PER_GPR fun b => gprSet row b clearedVal) :=
        Meaning.clearedVal_does
          (fillGpr_writes (fun i hi => ⟨inFile row (.head _), hi⟩) (.inr rfl))
      rw [List.flatMap_cons, Block.write_append]
      refine first.bind fun _ => ?_
      rw [Set.union_empty]
      exact ih _ fun r hr => inFile r (.tail _ hr)
  exact rows callerSaved w (by decide)

theorem raxSetAll_does (ht : (t, joinOf inp m (cs.map .inl)) ∈ held) :
    byLabels.Does held w (fun _ => ∅) (Block.write inp m (raxGets cs) w) (raxSetAll t) :=
  fillGpr_writes (fun i hi => ⟨by decide, by rw [TAGS_PER_GPR]; omega⟩) ht

/-- A value that is gathered while no cell changes. -/
theorem value_enacts {f : Engine Tag}
    (gathers : ∀ m, byLabels.Does held m (fun t => {(t, joinOf inp m (cs.map .inl))}) m f) :
    Enacts held inp [clobbers ++ raxGets cs]
      (do let t ← f; clobberCallerSaved; raxSetAll t : Engine PUnit) := by
  intro m
  rw [Plan.eval_singleton, Block.eval, Block.write_append]
  exact (gathers m).bind fun _ => clobber_does.bind fun _ => raxSetAll_does (.inl (.inr rfl))

/-- What is gathered from a list of arguments, one after the other. -/
theorem gathered_labels {is : List ℤ} {cells : ℤ → List Cell} {labels : ℤ → Finset ℕ}
    (each : ∀ i l, l ∈ labels i ↔ ∃ c ∈ cells i, l ∈ m c) :
    is.foldl (fun u i => u ∪ labels i) ∅ = joinOf inp m ((is.flatMap cells).map .inl) := by
  ext l
  rw [mem_foldl_union, mem_joinOf_inl]
  simp only [Finset.notMem_empty, false_or, each, List.mem_flatMap]
  constructor
  · rintro ⟨i, hi, c, hc, hl⟩
    exact ⟨c, ⟨i, hi, hc⟩, hl⟩
  · rintro ⟨c, ⟨i, hi, hc⟩, hl⟩
    exact ⟨i, hi, c, hc, hl⟩

theorem mem_pointedTo (i : ℤ) (l : ℕ) :
    l ∈ pointedTo mem av sum m i ↔ ∃ c ∈ sum.pointee mem av i, l ∈ m c := by
  unfold pointedTo Summary.pointee
  cases argVal av i with
  | none => simp
  | some p =>
    dsimp only
    split_ifs with null
    · simp
    · rw [← mem_joinOf_inl fun _ => ∅, joinOf_firstCells]
      rfl

theorem mem_argLabels (i : ℤ) (l : ℕ) : l ∈ argLabels m i ↔ ∃ c ∈ argCells i, l ∈ m c := by
  unfold argLabels argCells
  cases argToReg i with
  | none => simp
  | some row =>
    dsimp only
    rw [← mem_joinOf_inl fun _ => ∅, joinOf_firstCells]

theorem ptr2val_enacts (user : sum.BuffersInRange mem av) :
    Enacts held inp [clobbers ++ raxGets (sum.src.flatMap (sum.pointee mem av))]
      (handlePropPtr2val mem av sum) := by
  refine value_enacts (f := ptr2valTag mem av sum) fun m => ?_
  rw [← gathered_labels mem_pointedTo]
  exact ptr2valTag_does user

theorem scalar_enacts : Enacts held inp [clobbers ++ raxGets (sum.args.flatMap argCells)]
    (handlePropScalar sum) := by
  refine value_enacts (f := scalarTag sum) fun m => ?_
  rw [← gathered_labels mem_argLabels]
  exact scalarTag_does

theorem clobber_enacts : Enacts held inp [clobbers] clobberCallerSaved := fun _ => clobber_does

/-- RAX takes over the tag of a byte. -/
theorem raxFrom_enacts {dst : ADDRINT} (user : dst ≤ lastAddress) :
    Enacts held inp [raxGets [.mem dst]] (do let t ← getb dst; raxSetAll t : Engine PUnit) :=
  fun _ => (Meaning.getb_does user).bind fun _ => raxSetAll_does (.inr (by simp))

theorem Enacts.onlyIf {c : Prop} [Decidable c] {p : CellPlan} {f : Engine PUnit}
    (h : c → Enacts held inp p f) : Enacts held inp (if c then p else []) (onlyIf c f) := by
  unfold Action.onlyIf
  split_ifs with hc
  · exact h hc
  · exact .skip _

theorem ptr2ptr_enacts (first : ∀ i ∈ sum.src.head?, 0 ≤ i ∧ i ≤ 5)
    (shape : sum.shape = .propPtr2ptr)
    (user : ∀ a ∈ sum.reads mem av, a ≤ lastAddress) :
    Enacts held inp (sum.ptr2ptrPlan mem av) (handlePropPtr2ptr mem av sum) := by
  unfold Summary.ptr2ptrPlan handlePropPtr2ptr
  cases hsrc : sum.src with
  | nil => exact clobber_enacts
  | cons i rest =>
    obtain ⟨src, harg⟩ : ∃ p, argVal av i = some p := argVal_of_mem (first i (by rw [hsrc]; rfl))
    have reads : sum.ptr2ptrSrc av = src := by simp [Summary.ptr2ptrSrc, hsrc, harg]
    simp only [Summary.reads, shape, reads] at user
    have indexed : argIndexed av i = pure src := by rw [argIndexed, harg]
    have dstUser : ptr2ptrDst sum av ≠ 0 ∧ 0 < propLen mem sum av src →
        ptr2ptrDst sum av ≤ lastAddress :=
      fun h => user _ (.inr ⟨rfl, by simp [hsrc], h.1, h.2⟩)
    simp only [harg, Option.getD_some, indexed, pure_bind]
    refine Enacts.bind (Enacts.onlyIf fun both => ?_)
      (clobber_enacts.bind (Enacts.onlyIf fun h => ?_))
    · refine Enacts.bind (Enacts.loop fun k hk m => ?_) (Enacts.onlyIf fun pos => ?_)
      · exact (Meaning.getb_does (user _ (.inl ⟨⟨k, hk, rfl⟩, both⟩))).bind fun _ =>
          stores_one_does (.inr rfl)
      · exact raxFrom_enacts (dstUser ⟨both.1, pos⟩)
    · exact raxFrom_enacts (dstUser h)

/-- Every summary does to the labels what its plan says. -/
theorem Summary.enacts (first : sum.FirstOk) (user : ∀ a ∈ sum.reads mem av, a ≤ lastAddress) :
    Enacts held inp (sum.plan mem av) (dispatch mem av sum) := by
  unfold Summary.plan dispatch
  cases shape : sum.shape with
  | source | sourceRetPtr | clobberOnly => exact clobber_enacts
  | propPtr2ptr => exact ptr2ptr_enacts (first shape) shape user
  | propPtr2val =>
    refine ptr2val_enacts fun i hi p hp h0 k hk => user _ ?_
    rw [Summary.reads, shape]
    exact ⟨i, hi, p, hp, h0, k, hk, rfl⟩
  | propScalar => exact scalar_enacts
  | invalid => exact .skip _

end Summaries

/-! ## Hooks and calls -/

def paintPlan (buf : ADDRINT) (start : UINT64) (n : ℕ) : CellPlan :=
  perByte n fun i => stores (byteAt buf i) [.inr (.label (offsetLabel start i).toNat)]

def clearPlan (buf : ADDRINT) (n : ℕ) : CellPlan := perByte n fun i => stores (byteAt buf i) []

/-- The default of `event_post_syscall`. -/
def defaultPlan (desc : SyscallDesc) (ctx : SyscallCtx) : CellPlan :=
  if ctx.ret.toInt < 0 then []
  else ((List.finRange 6).take desc.nargs).flatMap fun i =>
    if 0 < desc.mapArgs i ∧ ctx.arg i ≠ 0 then
      clears (ctx.arg i) ((desc.mapArgs i).setWidth 32)
    else []

def PostHook.plan (os : KernelView) (fdset : Finset INT32) (ctx : SyscallCtx) :
    PostHook → CellPlan
  | .read =>
    let nbytes : UINT32 := ctx.ret.setWidth 32
    let fd := toInt32 (ctx.arg 0)
    if ctx.ret.toInt ≤ 0 then []
    else if fd ∈ fdset then
      paintPlan (ctx.arg 1) (os.seekCur fd - nbytes.setWidth 64) nbytes.toNat
    else clearPlan (ctx.arg 1) nbytes.toNat
  | .pread64 =>
    let nr : UINT32 := ctx.ret.setWidth 32
    if ctx.ret.toInt < 0 then []
    else if toInt32 (ctx.arg 0) ∈ fdset then paintPlan (ctx.arg 1) (ctx.arg 3) nr.toNat
    else clearPlan (ctx.arg 1) nr.toNat
  | .mmap mmapType =>
    let fd := toInt32 (ctx.arg 4)
    let nr := (ctx.arg 1).toNat
    if ctx.ret = -1 then []
    else if 0 ≤ fd.toInt ∧ fd ∈ fdset then
      match mmapStart os mmapType ctx with
      | none => []
      | some start => paintPlan (mmapBuf ctx) start nr
    else clearPlan (mmapBuf ctx) nr
  | .munmap => if ctx.ret.toInt < 0 then [] else clearPlan (ctx.arg 0) (ctx.arg 1).toNat
  | .cleanup desc => defaultPlan desc ctx

/-- The bytes of a register get the labels of a handle. -/
def Api.Call.regPlan (sp : Span) (n : ℕ) (t : Tag) : CellPlan :=
  perByte n fun k => [⟨regAt sp.row sp.start k, [.inr (.handle t)]⟩]

def Api.Call.plan : Api.Call → CellPlan
  | .setMemTag addr t => [stores addr [.inr (.handle t)]]
  | .clearMem addr n | .clearRange addr n => clears addr (n.setWidth 32)
  | .setRegTag reg t =>
    match Api.regSpan reg with
    | none => []
    | some sp => regPlan sp sp.n t
  | .setRegTagByte reg i t =>
    match Api.regSpan reg with
    | none => []
    | some sp =>
      if sp.n ≤ i.toNat then []
      else [[⟨regAt sp.row sp.start i.toNat, [.inr (.handle t)]⟩]]
  | .paintRange addr n label => perByte n.toNat fun i =>
    stores (byteAt addr i) [.inr (.label label.toNat)]
  | .makeTag _ | .combine .. | .getMemTag _ | .getMemTagRange .. | .getRegTag _
  | .getRegTagByte .. | .getRegTagRange _ | .argPointedTag .. => []

def Event.plan : Event → CellPlan
  | .handler app _ c => c.plan app
  | .summary mem av sum => sum.plan mem av
  | .hook os fdset ctx h => h.plan os fdset ctx
  | .call c => c.plan

/-- The labels that an input stands for, with the ids of a table. -/
def Input.labels (tb : SetTable) : Input → Finset ℕ
  | .label l => {l}
  | .handle t => tb.setOf t

section Hooks

variable {held : Set (Tag × Finset ℕ)} {tb : SetTable} {os : KernelView} {fdset : Finset INT32}
  {ctx : SyscallCtx} {buf : ADDRINT} {start : UINT64} {n : ℕ}

theorem paintBytes_enacts (user : InRange buf n) :
    Enacts held (Input.labels tb) (paintPlan buf start n) (paintBytes buf start n) :=
  Enacts.loop fun i hi _ => (Meaning.getb_does (user i hi)).bind fun _ =>
    (setTag_does _).bind fun _ => stores_one_does (.inr rfl)

theorem clearBytes_enacts :
    Enacts held (Input.labels tb) (clearPlan buf n) (clearBytes buf n) :=
  Enacts.loop fun _ _ _ => Meaning.clearedVal_does (stores_does (.inr rfl))

theorem defaultPost_enacts {desc : SyscallDesc} :
    Enacts held (Input.labels tb) (defaultPlan desc ctx) (defaultPost desc ctx) := by
  unfold defaultPlan defaultPost
  split_ifs with failed
  · exact .skip _
  generalize (List.finRange 6).take desc.nargs = args
  induction args with
  | nil => exact .skip _
  | cons i args ih => exact (Enacts.onlyIf fun _ => clrn_enacts _).bind ih

theorem postReadHook_enacts
    (user : PostHook.read.Paints os fdset ctx fun p => InRange p.buf p.n) :
    Enacts held (Input.labels tb) (PostHook.read.plan os fdset ctx)
      (postReadHook os fdset ctx) := by
  simp only [PostHook.plan, postReadHook]
  split_ifs with failed tracked
  · exact .skip _
  · have paints : ∀ {p : Paint → Prop}, PostHook.read.Paints os fdset ctx p ↔ p _ :=
      PostHook.paints_of_some (if_pos ⟨not_le.mp failed, tracked⟩)
    exact paintBytes_enacts (paints.mp user)
  · exact clearBytes_enacts

theorem postPread64Hook_enacts
    (user : PostHook.pread64.Paints os fdset ctx fun p => InRange p.buf p.n) :
    Enacts held (Input.labels tb) (PostHook.pread64.plan os fdset ctx)
      (postPread64Hook fdset ctx) := by
  simp only [PostHook.plan, postPread64Hook]
  split_ifs with failed tracked
  · exact .skip _
  · have paints : ∀ {p : Paint → Prop}, PostHook.pread64.Paints os fdset ctx p ↔ p _ :=
      PostHook.paints_of_some (if_pos ⟨not_lt.mp failed, tracked⟩)
    exact paintBytes_enacts (paints.mp user)
  · exact clearBytes_enacts

theorem postMmapHook_enacts {mmapType : Bool}
    (user : (PostHook.mmap mmapType).Paints os fdset ctx fun p => InRange p.buf p.n) :
    Enacts held (Input.labels tb) ((PostHook.mmap mmapType).plan os fdset ctx)
      (postMmapHook os mmapType fdset ctx) := by
  simp only [PostHook.plan, postMmapHook]
  split_ifs with failed tracked
  · exact .skip _
  · have start : (PostHook.mmap mmapType).paints os fdset ctx =
        (mmapStart os mmapType ctx).map fun start => ⟨mmapBuf ctx, start, (ctx.arg 1).toNat⟩ :=
      if_pos ⟨failed, tracked⟩
    cases hs : mmapStart os mmapType ctx with
    | none => exact .skip _
    | some offset =>
      have paints : ∀ {p : Paint → Prop}, (PostHook.mmap mmapType).Paints os fdset ctx p ↔ p _ :=
        PostHook.paints_of_some (by rw [start, hs]; rfl)
      exact (paintBytes_enacts (paints.mp user)).andPure _
  · exact clearBytes_enacts.andPure _

theorem postMunmapHook_enacts : Enacts held (Input.labels tb) (PostHook.munmap.plan os fdset ctx)
    (postMunmapHook ctx) := by
  simp only [PostHook.plan, postMunmapHook]
  split_ifs
  · exact .skip _
  · exact clearBytes_enacts

/-- Every hook does to the labels what its plan says. -/
theorem PostHook.enacts {h : PostHook} (user : ∀ a ∈ h.reads os fdset ctx, a ≤ lastAddress) :
    Enacts held (Input.labels tb) (h.plan os fdset ctx) (h.run os fdset ctx) := by
  have range : h.Paints os fdset ctx fun p => InRange p.buf p.n :=
    fun p hp => inRange_iff.mpr fun a ha => user a ⟨p, hp, ha⟩
  cases h with
  | read => exact (postReadHook_enacts range).andPure _
  | pread64 => exact (postPread64Hook_enacts range).andPure _
  | mmap => exact postMmapHook_enacts range
  | munmap => exact postMunmapHook_enacts.andPure _
  | cleanup => exact defaultPost_enacts.andPure _

end Hooks

section Calls

variable {held : Set (Tag × Finset ℕ)} {tb : SetTable}

theorem gprSet_enacts {row byte : ℕ} {t : Tag} (h : InFile row byte)
    (ht : (t, tb.setOf t) ∈ held) :
    Enacts held (Input.labels tb) [[⟨.reg row byte, [.inr (.handle t)]⟩]] (gprSet row byte t) := by
  intro m
  have value : joinOf (Input.labels tb) m [.inr (.handle t)] = tb.setOf t := by simp [Input.labels]
  rw [Plan.eval_singleton, Block.eval_singleton, value]
  exact Meaning.gprSet_does h ht

theorem paintRange_enacts {addr : ADDRINT} {n : UINT64} {label : UINT32} :
    Enacts held (Input.labels tb) ((Api.Call.paintRange addr n label).plan)
      (Api.paintRange addr n label) :=
  Enacts.loop fun _ _ _ => (setTag_does label).bind fun _ => stores_one_does (.inr rfl)

theorem setRegTag_enacts {reg : RegId} {t : Tag} (ht : (t, tb.setOf t) ∈ held) :
    Enacts held (Input.labels tb) ((Api.Call.setRegTag reg t).plan) (Api.setRegTag reg t) := by
  rw [Api.Call.plan, Api.setRegTag]
  cases h : Api.regSpan reg with
  | none => exact .skip _
  | some sp =>
    exact Enacts.loop fun k hk m => gprSet_enacts ((Api.regSpan_gprSpan h).inFile hk) ht m

theorem setRegTagByte_enacts {reg : RegId} {i : UINT64} {t : Tag} (ht : (t, tb.setOf t) ∈ held) :
    Enacts held (Input.labels tb) ((Api.Call.setRegTagByte reg i t).plan)
      (Api.setRegTagByte reg i t) := by
  rw [Api.Call.plan, Api.setRegTagByte]
  cases h : Api.regSpan reg with
  | none => exact .skip _
  | some sp =>
    dsimp only
    split_ifs with outside
    · exact .skip _
    · exact gprSet_enacts ((Api.regSpan_gprSpan h).inFile (not_le.mp outside)) ht

/-- Every call does to the labels what its plan says, if the handles it is given stand for what
they do in `tb`. -/
theorem Api.Call.enacts {c : Api.Call} (user : ∀ a ∈ c.reads, a ≤ lastAddress)
    (handles : ∀ t ∈ c.tags, (t, tb.setOf t) ∈ held) :
    Enacts held (Input.labels tb) c.plan c.run := by
  -- a call that writes nothing
  have keeps : c.writes = ∅ → Enacts held (Input.labels tb) [] c.run := by
    intro writes
    have flow : Flow c.writes Set.univ c.tags _ _ c.run :=
      Api.Call.flow (Set.subset_univ _) subset_rfl
    rw [writes] at flow
    exact .of_flow flow user fun t ht => ⟨_, handles t ht⟩
  cases c with
  | setMemTag addr t =>
    have write : Enacts held (Input.labels tb) [stores addr [.inr (.handle t)]] (setb addr t) :=
      fun _ => stores_one_does (handles t rfl)
    exact write.andPure none
  | clearMem | clearRange => exact (clrn_enacts _).andPure none
  | setRegTag reg t => exact (setRegTag_enacts (handles t rfl)).andPure none
  | setRegTagByte reg i t => exact (setRegTagByte_enacts (handles t rfl)).andPure none
  | paintRange => exact paintRange_enacts.andPure none
  | _ => exact keeps rfl

/-- Every event does to the labels what its plan says. -/
theorem Event.enacts {e : Event} (ok : e.WellFormed) (user : ∀ a ∈ e.reads, a ≤ lastAddress)
    (handles : ∀ t ∈ e.tags, (t, tb.setOf t) ∈ held) :
    Enacts held (Input.labels tb) e.plan e.run := by
  cases e with
  | handler => exact (CleanCall.enacts ok user).andPure _
  | summary => exact (Summary.enacts ok user).andPure _
  | hook => exact PostHook.enacts user
  | call => exact (Api.Call.enacts user handles).andPure _

end Calls

end LibdftDr
