import LibdftDr.Core.Cmpxchg
import LibdftDr.Core.Plans

/-!
# The clean calls enact their plans

One theorem for each handler, and `CleanCall.enacts` for all of them: all that the handlers do to
labels is to move and unite them, along ways that do not depend on the labels.
-/
namespace LibdftDr
open Library Library.Action

/-! ## The handlers -/

section Handlers

variable {held : Set (Tag × Finset ℕ)} {inp : Input → Finset ℕ} {app : AppView}
  {addr da sa : ADDRINT} {row start dr ds sr ss ar as' n k : ℕ}

/-- The transfer that MOV, CMOV and the extensions share. -/
theorem copyR2r_enacts (hd : ∀ i < n, InFile dr (ds + i)) (hs : GprSpan sr ss n) :
    Enacts held inp (perByte n fun i => [gets (regAt dr ds i) [regAt sr ss i]])
      (loop n fun i => do let t ← gprGet sr (ss + i); gprSet dr (ds + i) t) := by
  refine Enacts.loop fun i hi m => ?_
  rw [eval_gets_one]
  exact (Meaning.gprGet_does (hs.inFile hi)).bind fun _ =>
    Meaning.gprSet_does (hd i hi) (.inr rfl)

theorem copyM2r_enacts (hd : ∀ i < n, InFile dr (ds + i)) (ha : InRange addr n) :
    Enacts held inp (perByte n fun i => [gets (regAt dr ds i) [memAt addr i]])
      (loop n fun i => do let t ← getb (byteAt addr i); gprSet dr (ds + i) t) := by
  refine Enacts.loop fun i hi m => ?_
  rw [eval_gets_one]
  exact (Meaning.getb_does (ha i hi)).bind fun _ => Meaning.gprSet_does (hd i hi) (.inr rfl)

theorem clearGpr_enacts (hd : ∀ i < n, InFile dr (ds + i)) :
    Enacts held inp (perByte n fun i => [gets (regAt dr ds i) []])
      (loop n fun i => gprSet dr (ds + i) clearedVal) := by
  refine Enacts.loop fun i hi m => ?_
  rw [eval_gets_nil]
  exact Meaning.clearedVal_does (Meaning.gprSet_does (hd i hi) (.inr rfl))

/-- Bytes of a row that get one tag. -/
theorem fillGpr_writes {t : Tag} {cs : List Cell} {m w : Cell → Finset ℕ} {byte : ℕ → ℕ}
    (hd : ∀ i < n, InFile dr (byte i)) (ht : (t, joinOf inp m (cs.map .inl)) ∈ held) :
    byLabels.Does held w (fun _ => ∅)
      (Block.write inp m (fills (fun i => .reg dr (byte i)) n cs) w)
      (loop n fun i => gprSet dr (byte i) t) := by
  rw [write_fills, fill]
  refine View.Does.loop (fun i hi m => ?_) w
  exact Meaning.gprSet_does (hd i hi) ht

theorem movR2m_enacts (h : GprSpan row start n) :
    Enacts held inp (perByte n fun i => stores (byteAt addr i) [.inl (regAt row start i)])
      (movR2m addr row start n) :=
  Enacts.loop fun _ hi _ => (Meaning.gprGet_does (h.inFile hi)).bind fun _ =>
    stores_one_does (.inr rfl)

theorem m2mXfer_enacts (ha : InRange sa n) :
    Enacts held inp (perByte n fun i => stores (byteAt da i) [.inl (memAt sa i)])
      (m2mXfer da sa n) :=
  Enacts.loop fun i hi _ => (Meaning.getb_does (ha i hi)).bind fun _ =>
    stores_one_does (.inr rfl)

theorem xchgR2r_enacts (ha : GprSpan ar as' n) (hb : GprSpan sr ss n) :
    Enacts held inp (perByte n fun i =>
      [gets (regAt ar as' i) [regAt sr ss i], gets (regAt sr ss i) [regAt ar as' i]])
      (xchgR2r ar as' sr ss n) := by
  refine Enacts.loop fun i hi m => ?_
  refine (Meaning.gprGet_does (ha.inFile hi)).bind fun _ =>
    (Meaning.gprGet_does (hb.inFile hi)).bind fun _ =>
    (Meaning.gprSet_does (ha.inFile hi) (.inr rfl)).bind fun _ => ?_
  simp only [Block.eval, Block.write_cons, Block.write_nil, gets, List.map_cons, List.map_nil,
    joinOf_inl, joinOf_nil, sup_bot_eq]
  exact Meaning.gprSet_does (hb.inFile hi) (.inl (.inl (.inr rfl)))

theorem xchgM2r_enacts (ha : InRange addr n) (h : GprSpan row start n) :
    Enacts held inp (perByte n fun i =>
      [gets (regAt row start i) [memAt addr i], gets (memAt addr i) [regAt row start i]])
      (xchgM2r addr row start n) := by
  refine Enacts.loop fun i hi m => ?_
  refine (Meaning.gprGet_does (h.inFile hi)).bind fun _ =>
    (Meaning.getb_does (ha i hi)).bind fun _ =>
    (Meaning.gprSet_does (h.inFile hi) (.inr rfl)).bind fun _ => ?_
  simp only [Block.eval, Block.write_cons, Block.write_nil, gets, List.map_cons, List.map_nil,
    joinOf_inl, joinOf_nil, sup_bot_eq]
  exact Meaning.setb_does (ha i hi) (.inl (.inl (.inr rfl)))

theorem binaryR2r_enacts (hd : GprSpan dr ds n) (hs : GprSpan sr ss n) :
    Enacts held inp (perByte n fun i => [gets (regAt dr ds i) [regAt dr ds i, regAt sr ss i]])
      (binaryR2r dr ds sr ss n) :=
  .of_rounds (fun _ => Meaning.binaryR2r_does hd hs) fun _ _ => eval_gets_two _ _

theorem binaryM2r_enacts (hd : GprSpan dr ds n) (ha : InRange addr n) :
    Enacts held inp (perByte n fun i => [gets (regAt dr ds i) [regAt dr ds i, memAt addr i]])
      (binaryM2r dr ds addr n) :=
  .of_rounds (fun _ => Meaning.binaryM2r_does hd ha) fun _ _ => eval_gets_two _ _

theorem binaryR2m_enacts (hs : GprSpan sr ss n) (ha : InRange addr n) :
    Enacts held inp (perByte n fun i => [gets (memAt addr i) [memAt addr i, regAt sr ss i]])
      (binaryR2m addr sr ss n) :=
  .of_rounds (fun _ => Meaning.binaryR2m_does hs ha) fun _ _ => eval_gets_two _ _

/-- Rows of an extension start at their first byte. -/
theorem extended_inFile (hd : GprSpan dr 0 (max k n)) : ∀ i < max k n, InFile dr i := by
  intro i hi
  simpa using hd.inFile hi

theorem lowest_inFile (file : ∀ i < max k n, InFile dr i) : ∀ i < k, InFile dr (0 + i) := by
  intro i hi
  simpa using file i (by omega)

theorem movzxR2r_enacts (hd : GprSpan dr 0 (max k n)) (hs : GprSpan sr ss k) :
    Enacts held inp ((CleanCall.movzxR2r dr sr ss k n).plan app) (movzxR2r dr sr ss k n) := by
  have file := extended_inFile hd
  have low : Enacts held inp (perByte k fun i => [gets (.reg dr i) [regAt sr ss i]])
      (loop k fun i => do let t ← gprGet sr (ss + i); gprSet dr i t) := by
    simpa only [regAt, Nat.zero_add] using
      copyR2r_enacts (lowest_inFile file) hs
  exact low.bind (clearGpr_enacts fun i hi => file _ (by omega))

theorem movzxM2r_enacts (hd : GprSpan dr 0 (max k n)) (ha : InRange addr k) :
    Enacts held inp ((CleanCall.movzxM2r dr addr k n).plan app) (movzxM2r dr addr k n) := by
  have file := extended_inFile hd
  have low : Enacts held inp (perByte k fun i => [gets (.reg dr i) [memAt addr i]])
      (loop k fun i => do let t ← getb (byteAt addr i); gprSet dr i t) := by
    simpa only [regAt, Nat.zero_add] using
      copyM2r_enacts (lowest_inFile file) ha
  exact low.bind (clearGpr_enacts fun i hi => file _ (by omega))

theorem movsxR2r_enacts (hd : GprSpan dr 0 (max k n)) (hs : GprSpan sr ss k) :
    Enacts held inp ((CleanCall.movsxR2r dr sr ss k n).plan app) (movsxR2r dr sr ss k n) := by
  have file := extended_inFile hd
  rw [CleanCall.plan, movsxR2r]
  split_ifs with none
  · exact .skip _
  have low : Enacts held inp (perByte k fun i => [gets (.reg dr i) [regAt sr ss i]])
      (loop k fun i => do let t ← gprGet sr (ss + i); gprSet dr i t) := by
    simpa only [regAt, Nat.zero_add] using
      copyR2r_enacts (lowest_inFile file) hs
  have top : InFile sr (ss + k - 1) := by
    have := hs.inFile (by omega : k - 1 < k)
    rwa [Nat.add_sub_assoc (by omega)]
  refine low.bind fun m => (Meaning.gprGet_does top).bind fun t => ?_
  exact fillGpr_writes (fun i hi => file _ (by omega)) (.inr (by simp))

theorem movsxM2r_enacts (hd : GprSpan dr 0 (max k n)) (ha : InRange addr k) :
    Enacts held inp ((CleanCall.movsxM2r dr addr k n).plan app) (movsxM2r dr addr k n) := by
  have file := extended_inFile hd
  rw [CleanCall.plan, movsxM2r]
  split_ifs with none
  · exact .skip _
  have low : Enacts held inp (perByte k fun i => [gets (.reg dr i) [memAt addr i]])
      (loop k fun i => do let t ← getb (byteAt addr i); gprSet dr i t) := by
    simpa only [regAt, Nat.zero_add] using
      copyM2r_enacts (lowest_inFile file) ha
  have top : byteAt addr k - 1 ≤ lastAddress := by
    have last : byteAt addr k - 1 - BitVec.ofNat 64 0 = byteAt addr (k - 1 - 0) :=
      byteAt_sub (by omega)
    rw [BitVec.sub_zero] at last
    exact last ▸ ha _ (by omega)
  refine low.bind fun m => (Meaning.getb_does top).bind fun t => ?_
  exact fillGpr_writes (fun i hi => file _ (by omega)) (.inr (by simp))

theorem shiftR_enacts (h : GprSpan row start n) :
    Enacts held inp [fills (regAt row start) n (firstCells (regAt row start) n)]
      (shiftR row start n) := by
  intro m
  rw [Plan.eval_singleton, Block.eval, write_fills, joinOf_firstCells]
  by_cases none : n = 0
  · subst none
    exact View.Does.pure (Set.empty_subset _)
  · exact shiftR_does h none

theorem shiftM_enacts (ha : InRange addr n) :
    Enacts held inp [fills (memAt addr) n (firstCells (memAt addr) n)] (shiftM addr n) := by
  intro m
  rw [Plan.eval_singleton, Block.eval, write_fills, joinOf_firstCells]
  unfold shiftM
  split_ifs with none
  · subst none
    exact View.Does.pure (Set.empty_subset _)
  · have first : addr ≤ lastAddress := by
      rw [← byteAt_zero addr]
      exact ha 0 (by omega)
    have start : memAt addr 0 = .mem addr := congrArg Cell.mem (byteAt_zero addr)
    rw [← allOf_first _ none, start]
    refine (Meaning.getb_does first).bind fun _ =>
      (unite_does (.inr rfl) fun i hi _ => Meaning.getb_does (ha (1 + i) (by omega))).bind
        fun _ => ?_
    refine View.Does.loop (fun i hi m => ?_) m
    exact Meaning.setb_does (ha i hi) (.inr rfl)

theorem shldR2r_enacts (hd : GprSpan dr ds n) (hs : GprSpan sr ss n) :
    Enacts held inp
      [fills (regAt dr ds) n (firstCells (regAt dr ds) n ++ firstCells (regAt sr ss) n)]
      (shldR2r dr ds sr ss n) := by
  intro m
  rw [Plan.eval_singleton, Block.eval, write_fills, joinOf_map_inl_append, joinOf_firstCells,
    joinOf_firstCells]
  by_cases none : n = 0
  · subst none
    exact View.Does.pure (Set.empty_subset _)
  · exact shldR2r_does hd hs none

theorem bswapReg_enacts (h : GprSpan row start n) :
    Enacts held inp ((CleanCall.bswapReg row start n).plan app) (bswapReg row start n) := by
  rw [CleanCall.plan, bswapReg]
  split_ifs with small
  · obtain half : n / 2 = 0 := by omega
    rw [half]
    exact .skip _
  refine Enacts.loop fun i hi m => ?_
  have front : InFile row (start + i) := h.inFile (by omega)
  have back : InFile row (start + n - 1 - i) := by
    have := h.inFile (by omega : n - 1 - i < n)
    rwa [show start + (n - 1 - i) = start + n - 1 - i by omega] at this
  refine (Meaning.gprGet_does front).bind fun _ => (Meaning.gprGet_does back).bind fun _ =>
    (Meaning.gprSet_does front (.inr rfl)).bind fun _ => ?_
  simp only [Block.eval, Block.write_cons, Block.write_nil, gets, List.map_cons, List.map_nil,
    joinOf_inl, joinOf_nil, sup_bot_eq]
  exact Meaning.gprSet_does back (.inl (.inl (.inr rfl)))

theorem movbeM2r_enacts (h : GprSpan row start n) (ha : InRange addr n) :
    Enacts held inp ((CleanCall.movbeM2r row start addr n).plan app)
      (movbeM2r row start addr n) := by
  have load : Enacts held inp ((CleanCall.movbeM2r row start addr n).plan app)
      (loop n fun i => do
        let t ← getb (byteAt addr n - 1 - BitVec.ofNat 64 i)
        gprSet row (start + i) t) := by
    refine Enacts.loop fun i hi m => ?_
    rw [eval_gets_one, byteAt_sub hi]
    exact (Meaning.getb_does (ha _ (by omega))).bind fun _ =>
      Meaning.gprSet_does (h.inFile hi) (.inr rfl)
  unfold movbeM2r
  split_ifs with none
  · subst none
    exact .skip _
  · exact load

theorem movbeR2m_enacts (h : GprSpan row start n) :
    Enacts held inp ((CleanCall.movbeR2m addr row start n).plan app)
      (movbeR2m addr row start n) := by
  unfold movbeR2m
  split_ifs with none
  · subst none
    exact .skip _
  refine Enacts.loop fun i hi m => ?_
  have mirror : InFile row (start + n - 1 - i) := by
    have := h.inFile (by omega : n - 1 - i < n)
    rwa [show start + (n - 1 - i) = start + n - 1 - i by omega] at this
  exact (Meaning.gprGet_does mirror).bind fun _ => stores_one_does (.inr rfl)

theorem leaLoop_enacts (hd : GprSpan dr 0 n) (hb : GprSpan sr ss n) (hx : GprSpan ar as' n) :
    Enacts held inp (perByte n fun i => [gets (.reg dr i) [regAt sr ss i, regAt ar as' i]])
      (loop n fun i => do
        let b ← gprGet sr (ss + i)
        let x ← gprGet ar (as' + i)
        gprSet dr i (← combine b x)) := by
  refine Enacts.loop fun i hi m => ?_
  have file : InFile dr i := by simpa using hd.inFile hi
  rw [eval_gets_two]
  exact (Meaning.gprGet_does (hb.inFile hi)).bind fun _ =>
    (Meaning.gprGet_does (hx.inFile hi)).bind fun _ =>
    (Meaning.combine_does (.inl (.inr rfl)) (.inr rfl)).bind fun _ =>
    Meaning.gprSet_does file (.inr rfl)

/-- Two cells that get the same. -/
theorem eval_both {m : Cell → Finset ℕ} (d a : Cell) (cs : List Cell) :
    Block.eval inp [gets d cs, gets a cs] m =
      Function.update (Function.update m d (joinOf inp m (cs.map .inl))) a
        (joinOf inp m (cs.map .inl)) := rfl

theorem eval_exchange {m : Cell → Finset ℕ} (d c a : Cell) :
    Block.eval inp [gets d [d, c, a], gets a [d, c, a]] m = exchange d c a m := by
  rw [eval_both]
  simp [exchange, Finset.union_assoc]

theorem cmpxchgMem_enacts (ha : InRange addr n) (hs : GprSpan sr ss n) (hr : GprSpan ar as' n) :
    Enacts held inp ((CleanCall.cmpxchgMem addr sr ss ar as' n).plan app)
      (cmpxchgMem addr sr ss ar as' n) :=
  .of_rounds (fun _ => cmpxchgMem_does ha hs hr) fun _ _ => eval_exchange _ _ _

theorem cmpxchgReg_enacts (hd : GprSpan dr ds n) (hs : GprSpan sr ss n) (hr : GprSpan ar as' n) :
    Enacts held inp ((CleanCall.cmpxchgReg dr ds sr ss ar as' n).plan app)
      (cmpxchgReg dr ds sr ss ar as' n) :=
  .of_rounds (fun _ => cmpxchgReg_does hd hs hr) fun _ _ => eval_exchange _ _ _

theorem xaddR2r_enacts (hd : GprSpan dr ds n) (hs : GprSpan sr ss n) :
    Enacts held inp ((CleanCall.xaddR2r dr ds sr ss n).plan app) (xaddR2r dr ds sr ss n) := by
  refine Enacts.loop fun i hi m => ?_
  rw [eval_both]
  refine (Meaning.gprGet_does (hd.inFile hi)).bind fun _ =>
    (Meaning.gprGet_does (hs.inFile hi)).bind fun _ =>
    (Meaning.combine_does (.inl (.inr rfl)) (.inr rfl)).bind fun _ => ?_
  simp only [List.map_cons, List.map_nil, joinOf_inl, joinOf_nil, sup_bot_eq]
  exact (Meaning.gprSet_does (hd.inFile hi) (.inr rfl)).bind fun _ =>
    Meaning.gprSet_does (hs.inFile hi) (.inl (.inr rfl))

theorem xaddM2r_enacts (ha : InRange addr n) (hs : GprSpan sr ss n) :
    Enacts held inp ((CleanCall.xaddM2r addr sr ss n).plan app) (xaddM2r addr sr ss n) := by
  refine Enacts.loop fun i hi m => ?_
  rw [eval_both]
  refine (Meaning.getb_does (ha i hi)).bind fun _ =>
    (Meaning.gprGet_does (hs.inFile hi)).bind fun _ =>
    (Meaning.combine_does (.inl (.inr rfl)) (.inr rfl)).bind fun _ => ?_
  simp only [List.map_cons, List.map_nil, joinOf_inl, joinOf_nil, sup_bot_eq]
  exact (Meaning.setb_does (ha i hi) (.inr rfl)).bind fun _ =>
    Meaning.gprSet_does (hs.inFile hi) (.inl (.inr rfl))

theorem ternary_enacts {src : ℕ → Cell} {f : Engine PUnit}
    (does : ∀ m, byLabels.Does held m (fun _ => ∅) (spread (fun i => m (src i)) n m) f) :
    Enacts held inp [spreads n src] f := by
  intro m
  rw [Plan.eval_singleton, eval_spreads]
  exact does m

end Handlers

/-! ## The calls -/

section Calls

variable {held : Set (Tag × Finset ℕ)} {inp : Input → Finset ℕ} {p : CellPlan} {α : Type}
  {app : AppView} {limitOffset : INT32}

theorem Enacts.andPure {β : Type} {f : Engine β} (h : Enacts held inp p f) (a : α) :
    Enacts held inp p (do let _ ← f; pure a) :=
  fun m => (h m).bind fun _ => View.Does.pure (Set.empty_subset _)

/-- An action that changes no cell stands for the empty plan. -/
theorem Enacts.of_flow {guard : Prop} {out : α → Set Tag} {known : Set Tag} {f : Engine α}
    (flow : Flow ∅ Set.univ known guard out f) (hg : guard)
    (tags : ∀ v ∈ known, ∃ w, (v, w) ∈ held) : Enacts held inp [] f :=
  fun _ => keeps_does_of_held flow hg tags

theorem leaProp_enacts {ins : ADDRINT} {dr sr ss ar as' n : ℕ} (hd : GprSpan dr 0 n)
    (hb : GprSpan sr ss n) (hx : GprSpan ar as' n) (small : n ≤ 8) :
    Enacts held inp ((CleanCall.leaProp ins dr sr ss ar as' n).plan app)
      (leaProp ins dr sr ss ar as' n) := by
  intro m
  refine ((View.Does.gather fun i hi => Meaning.gprGet_does (hx.inFile hi)).weaken subset_rfl
    fun _ => Set.empty_subset _).bind fun idxTags => ?_
  refine (keeps_does tables_flow trivial).bind fun tb => ?_
  refine (keeps_does (tagFields_flow tb (by simpa using small)) trivial).bind fun o => ?_
  exact View.Does.bind (leaLoop_enacts hd hb hx m) fun _ => keeps_does (orNone_flow _) trivial

/-- A comparison writes no shadow. -/
theorem compare_enacts {c : CleanCall} (ok : c.InBounds) (writes : c.writes = ∅)
    (user : ∀ a ∈ c.reads app, a ≤ lastAddress) :
    Enacts held inp [] (c.run app limitOffset) := by
  have flow : Flow c.writes Set.univ ∅ _ _ (c.run app limitOffset) := CleanCall.flow ok
  rw [writes] at flow
  exact .of_flow flow user (by simp)

/-- Every clean call does to the labels what its plan says. -/
theorem CleanCall.enacts {c : CleanCall} (ok : c.InBounds)
    (user : ∀ a ∈ c.reads app, a ≤ lastAddress) :
    Enacts held inp (c.plan app) (c.run app limitOffset) := by
  cases c with
  | r2rXfer => exact (copyR2r_enacts (fun _ hi => ok.1.inFile hi) ok.2).andPure none
  | rClr => exact (clearGpr_enacts fun _ hi => ok.inFile hi).andPure none
  | movM2r => exact (copyM2r_enacts (fun _ hi => ok.inFile hi) (inRange_iff.mpr user)).andPure none
  | movR2m => exact (movR2m_enacts ok).andPure none
  | movClrMem => exact (clrn_enacts _).andPure none
  | m2mXfer => exact (m2mXfer_enacts (inRange_iff.mpr user)).andPure none
  | ternaryR2r => exact (ternary_enacts fun _ => ternaryR2r_does ok.1 ok.2).andPure none
  | ternaryM2r =>
    exact (ternary_enacts fun _ => ternaryM2r_does (inRange_iff.mpr user) ok).andPure none
  | xchgR2r => exact (xchgR2r_enacts ok.1 ok.2).andPure none
  | xchgM2r => exact (xchgM2r_enacts (inRange_iff.mpr user) ok).andPure none
  | cmovR2r =>
    refine Enacts.andPure ?_ none
    rw [plan, LibdftDr.cmovR2r]
    split_ifs
    · exact copyR2r_enacts (fun _ hi => ok.1.inFile hi) ok.2
    · exact .skip _
  | cmovM2r =>
    refine Enacts.andPure ?_ none
    rw [plan, LibdftDr.cmovM2r]
    split_ifs with taken
    · exact copyM2r_enacts (fun _ hi => ok.inFile hi)
        (inRange_iff.mpr fun a ha => user a ⟨ha, taken⟩)
    · exact .skip _
  | binaryR2r => exact (binaryR2r_enacts ok.1 ok.2).andPure none
  | binaryM2r => exact (binaryM2r_enacts ok (inRange_iff.mpr user)).andPure none
  | binaryR2m => exact (binaryR2m_enacts ok (inRange_iff.mpr user)).andPure none
  | movzxR2r => exact (movzxR2r_enacts ok.1 ok.2).andPure none
  | movzxM2r => exact (movzxM2r_enacts ok (inRange_iff.mpr user)).andPure none
  | movsxR2r => exact (movsxR2r_enacts ok.1 ok.2).andPure none
  | movsxM2r => exact (movsxM2r_enacts ok (inRange_iff.mpr user)).andPure none
  | leaProp =>
    intro m
    rw [run, map_eq_pure_bind]
    exact (leaProp_enacts ok.1 ok.2.1 ok.2.2.1 ok.2.2.2 m).bind fun _ =>
      View.Does.pure (Set.empty_subset _)
  | cmpR2r | cmpM2r | cmpI2r | cmpR2m | cmpI2m | cmpM2m => exact compare_enacts ok rfl user
  | shiftR => exact (shiftR_enacts ok).andPure none
  | shiftM => exact (shiftM_enacts (inRange_iff.mpr user)).andPure none
  | shldR2r => exact (shldR2r_enacts ok.1 ok.2).andPure none
  | bswapReg => exact (bswapReg_enacts ok).andPure none
  | movbeM2r => exact (movbeM2r_enacts ok (inRange_iff.mpr user)).andPure none
  | movbeR2m => exact (movbeR2m_enacts ok).andPure none
  | cmpxchgMem => exact (cmpxchgMem_enacts (inRange_iff.mpr user) ok.1 ok.2).andPure none
  | cmpxchgReg => exact (cmpxchgReg_enacts ok.1 ok.2.1 ok.2.2).andPure none
  | xaddR2r => exact (xaddR2r_enacts ok.1 ok.2).andPure none
  | xaddM2r => exact (xaddM2r_enacts (inRange_iff.mpr user) ok).andPure none

end Calls

end LibdftDr
