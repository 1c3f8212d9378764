import LibdftDr.Core.Router

/-!
# What the router inserts

One lemma for each inserter: its calls stay inside the register file, and with operands of at
most 32 bits they write no byte of a register above the fourth. `insInspectDr_fits` says it of
the router.
-/
namespace LibdftDr
open Library

/-- No byte of a register above the fourth is written. -/
def CleanCall.LowOnly (c : CleanCall) : Prop := ∀ row b, 4 ≤ b → Cell.reg row b ∉ c.writes

/-- The operands are at most 32 bits wide. -/
def Instr.Narrow (instr : Instr) : Prop := ∀ o ∈ instr.srcs ++ instr.dsts, o.sizeInBytes ≤ 4

/-- The calls stay in the register file, and in its low halves if the operands are narrow. -/
def Fits (narrow : Prop) (cs : List CleanCall) : Prop :=
  ∀ c ∈ cs, c.InBounds ∧ (narrow → c.LowOnly)

namespace Fits

variable {narrow narrow' : Prop} {cs cs' : List CleanCall} {c : CleanCall} {cpu : Cpu}

theorem nil : Fits narrow [] := by simp [Fits]

theorem one (bounds : c.InBounds) (low : narrow → c.LowOnly) : Fits narrow [c] := by
  simp only [Fits, List.mem_singleton]
  rintro c rfl
  exact ⟨bounds, low⟩

theorem mono (h : Fits narrow cs) (imp : narrow' → narrow) : Fits narrow' cs :=
  fun c hc => ⟨(h c hc).1, fun n => (h c hc).2 (imp n)⟩

theorem append (h : Fits narrow cs) (h' : Fits narrow cs') : Fits narrow (cs ++ cs') := by
  intro c hc
  obtain hc | hc := List.mem_append.mp hc
  · exact h c hc
  · exact h' c hc

theorem memAddr {m : MemRef} {call : ADDRINT → CleanCall} (bounds : ∀ a, (call a).InBounds)
    (low : narrow → ∀ a, (call a).LowOnly) : Fits narrow (withMemAddr cpu m call) := by
  unfold withMemAddr
  split_ifs
  · exact one (bounds _) fun n => low n _
  · exact nil

theorem memAddr2 {m m' : MemRef} {call : ADDRINT → ADDRINT → CleanCall}
    (bounds : ∀ a b, (call a b).InBounds) (low : narrow → ∀ a b, (call a b).LowOnly) :
    Fits narrow (withMemAddr2 cpu m m' call) := by
  unfold withMemAddr2
  split_ifs
  · exact one (bounds _ _) fun n => low n _ _
  · exact nil

end Fits

section Spans

variable {r : RegId} {d : Span} {n row start : ℕ}

theorem Span.le_eight (h : regShadowSpan r = some d) : d.start + d.n ≤ 8 :=
  (regShadowSpan_bounds h).2.2.2

/-- A span of another operand's width. -/
theorem Span.gprSpan_of_le (h : regShadowSpan r = some d) (hn : n ≤ 8) :
    GprSpan d.row d.start n := by
  obtain ⟨row, start, -⟩ := regShadowSpan_bounds h
  exact GprSpan.of_le (Nat.lt_succ_of_lt row) (by omega)

theorem Span.gprSpan (h : regShadowSpan r = some d) (hn : n ≤ d.n) : GprSpan d.row d.start n := by
  have := Span.le_eight h
  exact Span.gprSpan_of_le h (by omega)

theorem Span.low (h : regShadowSpan r = some d) (narrow : r.sizeInBytes ≤ 4) :
    d.start + d.n ≤ 4 := by
  have := (regShadowSpan_bounds h).2.2.1
  omega

/-- The start of the row, as the extensions and LEA write it. -/
theorem Span.gprSpan_zero (h : regShadowSpan r = some d) (hn : n ≤ 8) : GprSpan d.row 0 n := by
  obtain ⟨row, -⟩ := regShadowSpan_bounds h
  exact GprSpan.of_le (Nat.lt_succ_of_lt row) (by omega)

theorem addrRegSpan_gprSpan (hn : n ≤ 8) : GprSpan (addrRegSpan r).1 (addrRegSpan r).2 n := by
  obtain ⟨row, start⟩ := addrRegSpan_bounds r
  exact GprSpan.of_le row (by omega)

theorem regSpan_low (h : start + n ≤ 4) :
    ∀ row' b, 4 ≤ b → Cell.reg row' b ∉ regSpan row start n := by
  intro row' b hb hmem
  have := mem_regSpan.mp hmem
  omega

theorem regSpan_union_low {row' start' : ℕ} (h : start + n ≤ 4) (h' : start' + n ≤ 4) :
    ∀ r b, 4 ≤ b → Cell.reg r b ∉ regSpan row start n ∪ regSpan row' start' n := by
  rintro r b hb (hmem | hmem)
  · exact regSpan_low h r b hb hmem
  · exact regSpan_low h' r b hb hmem

theorem ternarySpan_low (h : n ≤ 4) : ∀ r b, 4 ≤ b → Cell.reg r b ∉ ternarySpan n := by
  unfold ternarySpan
  split_ifs
  · exact regSpan_low (by omega)
  · exact regSpan_union_low (by omega) (by omega)

end Spans

section Inserters

variable {cpu : Cpu} {instr : Instr}

theorem insertR2rXfer_fits (dst src : RegId) :
    Fits (dst.sizeInBytes ≤ 4) (insertR2rXfer dst src) := by
  unfold insertR2rXfer
  split
  · next d s hd hs =>
    refine Fits.one ⟨Span.gprSpan hd (by omega), Span.gprSpan hs (by omega)⟩ fun h => ?_
    have := Span.low hd h
    exact regSpan_low (by omega)
  · exact Fits.nil

theorem insertRClr_fits (dst : RegId) : Fits (dst.sizeInBytes ≤ 4) (insertRClr dst) := by
  unfold insertRClr
  split
  · next d hd => exact Fits.one (Span.gprSpan hd le_rfl) fun h => regSpan_low (Span.low hd h)
  · exact Fits.nil

theorem insertMovM2r_fits (dst : RegId) (m : MemRef) :
    Fits (dst.sizeInBytes ≤ 4) (insertMovM2r cpu dst m) := by
  unfold insertMovM2r
  split
  · next d hd =>
    exact Fits.memAddr (fun _ => Span.gprSpan hd le_rfl) fun h _ => regSpan_low (Span.low hd h)
  · exact Fits.nil

theorem insertMovR2m_fits (m : MemRef) (src : RegId) : Fits True (insertMovR2m cpu m src) := by
  unfold insertMovR2m
  split
  · next s hs =>
    exact Fits.memAddr (fun _ => Span.gprSpan hs le_rfl) fun _ _ _ _ _ => reg_not_mem_memSpan
  · exact Fits.nil

theorem insertMovClrMem_fits (m : MemRef) : Fits True (insertMovClrMem cpu m) := by
  have := m.size_le
  unfold insertMovClrMem
  split_ifs
  · exact Fits.nil
  · exact Fits.memAddr (fun _ => show m.size < 2 ^ 32 by omega) fun _ _ _ _ _ => reg_not_mem_memSpan

theorem insertM2mXfer_fits (d s : MemRef) (n : ℕ) : Fits True (insertM2mXfer cpu d s n) := by
  unfold insertM2mXfer
  split_ifs
  · exact Fits.nil
  · exact Fits.memAddr2 (fun _ _ => trivial) fun _ _ _ _ _ _ => reg_not_mem_memSpan

theorem mem_of_mem_gprRegs {r : RegId} {os : List Opnd} (h : r ∈ gprRegs os) :
    Opnd.reg r ∈ os := by
  simp only [gprRegs, List.mem_filterMap] at h
  obtain ⟨o, ho, h⟩ := h
  cases o with
  | reg r' =>
    simp only [Option.ite_none_right_eq_some, Option.some.injEq] at h
    rwa [← h.2]
  | _ => simp at h

namespace Instr.Narrow

variable {o : Opnd}

theorem dst (h : instr.Narrow) (ho : o ∈ instr.dsts) : o.sizeInBytes ≤ 4 :=
  h o (List.mem_append_right _ ho)

theorem src (h : instr.Narrow) (ho : o ∈ instr.srcs) : o.sizeInBytes ≤ 4 :=
  h o (List.mem_append_left _ ho)

theorem dst_head (h : instr.Narrow) (ho : instr.dsts.head? = some o) : o.sizeInBytes ≤ 4 :=
  h.dst (List.mem_of_head? ho)

theorem src_head (h : instr.Narrow) (ho : instr.srcs.head? = some o) : o.sizeInBytes ≤ 4 :=
  h.src (List.mem_of_head? ho)

end Instr.Narrow

theorem insertMovLd_fits : Fits instr.Narrow (insertMovLd cpu instr) := by
  unfold insertMovLd
  split
  · next d s hd _ => exact (insertR2rXfer_fits d s).mono fun h => h.dst_head hd
  · next d m hd _ => exact (insertMovM2r_fits d m).mono fun h => h.dst_head hd
  · exact Fits.nil

theorem insertMovSt_fits : Fits instr.Narrow (insertMovSt cpu instr) := by
  unfold insertMovSt
  split
  · next m s _ _ => exact (insertMovR2m_fits m s).mono fun _ => trivial
  · next m _ _ _ => exact (insertMovClrMem_fits m).mono fun _ => trivial
  · next d s hd _ => exact (insertR2rXfer_fits d s).mono fun h => h.dst_head hd
  · next d _ hd _ => exact (insertRClr_fits d).mono fun h => h.dst_head hd
  · exact Fits.nil

theorem insertMovImm_fits : Fits instr.Narrow (insertMovImm instr) := by
  unfold insertMovImm
  split
  · next d hd => exact (insertRClr_fits d).mono fun h => h.dst_head hd
  · exact Fits.nil

theorem insertXfer_fits : Fits instr.Narrow (insertXfer cpu instr) := by
  unfold insertXfer
  split
  · next d s hd _ => exact (insertR2rXfer_fits d s).mono fun h => h.dst_head hd
  · next d m hd _ => exact (insertMovM2r_fits d m).mono fun h => h.dst_head hd
  · exact Fits.nil

theorem insertBinary_fits (opcode : Opcode) :
    Fits instr.Narrow (insertBinary cpu instr opcode) := by
  unfold insertBinary
  split
  · exact Fits.nil
  · next op0 hop0 =>
    have hdst : op0 ∈ instr.dsts := List.mem_of_find?_eq_some hop0
    split
    · exact Fits.nil
    · next r0 r1 _ =>
      split_ifs
      · exact (insertRClr_fits r0).mono fun h => h.dst hdst
      · split
        · next d s hd hs =>
          refine Fits.one ⟨Span.gprSpan hd (by omega), Span.gprSpan hs (by omega)⟩ fun h => ?_
          have := Span.low hd (h.dst hdst)
          exact regSpan_low (by omega)
        · exact Fits.nil
    · next r0 m _ =>
      split
      · next d hd =>
        exact Fits.memAddr (fun _ => Span.gprSpan hd le_rfl)
          fun h _ => regSpan_low (Span.low hd (h.dst hdst))
      · exact Fits.nil
    · next m r1 _ =>
      split
      · next s hs =>
        exact Fits.memAddr (fun _ => Span.gprSpan hs le_rfl) fun _ _ _ _ _ => reg_not_mem_memSpan
      · exact Fits.nil
    · exact Fits.nil

theorem insertExtend_fits (sign : Bool) : Fits instr.Narrow (insertExtend cpu instr sign) := by
  unfold insertExtend
  split
  · next rd s hdst hsrc =>
    split
    · next d rs hd =>
      split
      · next s hs =>
        have := Span.le_eight hd
        have := Span.le_eight hs
        have bounds : GprSpan d.row 0 (max s.n d.n) ∧ GprSpan s.row s.start s.n :=
          ⟨Span.gprSpan_zero hd (by omega), Span.gprSpan hs le_rfl⟩
        have low : instr.Narrow → 0 + max s.n d.n ≤ 4 := fun h => by
          have := Span.low hd (h.dst_head hdst)
          have := Span.low hs (h.src_head hsrc)
          omega
        refine Fits.one ?_ fun h => ?_
        · cases sign <;> exact bounds
        · cases sign <;> exact regSpan_low (low h)
      · exact Fits.nil
    · next d m hd =>
      by_cases h0 : m.size = 0
      · rw [if_pos h0]
        exact Fits.nil
      · rw [if_neg h0]
        have := Span.le_eight hd
        have := m.size_le
        have bounds : GprSpan d.row 0 (max m.size d.n) := Span.gprSpan_zero hd (by omega)
        have low : instr.Narrow → 0 + max m.size d.n ≤ 4 := fun h => by
          have := Span.low hd (h.dst_head hdst)
          have : m.size ≤ 4 := h.src_head hsrc
          omega
        refine Fits.memAddr (fun _ => ?_) fun h _ => ?_
        · cases sign <;> exact bounds
        · cases sign <;> exact regSpan_low (low h)
    · exact Fits.nil
  · exact Fits.nil

theorem insertLea_fits : Fits instr.Narrow (insertLea instr) := by
  unfold insertLea
  split
  · next rd m hdst _ =>
    split
    · next d hd =>
      split_ifs
      · have := Span.le_eight hd
        refine Fits.one ⟨Span.gprSpan_zero hd (by omega), addrRegSpan_gprSpan (by omega),
          addrRegSpan_gprSpan (by omega), by omega⟩ fun h => ?_
        have := Span.low hd (h.dst_head hdst)
        exact regSpan_low (by omega)
      · exact Fits.nil
    · exact Fits.nil
  · exact Fits.nil

theorem insertPush_fits : Fits instr.Narrow (insertPush cpu instr) := by
  unfold insertPush
  split
  · exact Fits.nil
  · next mem _ =>
    cases found : instr.srcs.findSome? _ with
    | none => exact Fits.nil
    | some cs =>
      obtain ⟨o, -, ho⟩ := List.exists_of_findSome?_eq_some found
      have fits : Fits True cs := by
        cases o with
        | reg r =>
          simp only [Option.ite_none_left_eq_some, Option.some.injEq] at ho
          exact ho.2 ▸ insertMovR2m_fits mem r
        | immed v => exact Option.some.inj ho ▸ insertMovClrMem_fits mem
        | mem s => exact Option.some.inj ho ▸ insertM2mXfer_fits mem s mem.size
        | other => cases ho
      exact fits.mono fun _ => trivial

theorem insertPop_fits : Fits instr.Narrow (insertPop cpu instr) := by
  unfold insertPop
  split
  · exact Fits.nil
  · next mem _ =>
    cases found : instr.dsts.findSome? _ with
    | none => exact Fits.nil
    | some cs =>
      obtain ⟨o, hmem, ho⟩ := List.exists_of_findSome?_eq_some found
      cases o with
      | reg r =>
        simp only [Option.ite_none_right_eq_some, Option.some.injEq] at ho
        exact ho.2 ▸ (insertMovM2r_fits r mem).mono fun h => h.dst hmem
      | mem d =>
        exact Option.some.inj ho ▸ (insertM2mXfer_fits d mem d.size).mono fun _ => trivial
      | immed v => cases ho
      | other => cases ho

theorem insertCmps_fits : Fits instr.Narrow (insertCmps cpu instr) := by
  unfold insertCmps
  split
  · next m0 m1 _ _ =>
    dsimp only
    split_ifs
    all_goals first
      | exact Fits.nil
      | exact Fits.memAddr2 (fun _ _ => MemRef.size_le _) fun _ _ _ _ _ _ h => h
  · exact Fits.nil

/-- The accumulator opcodes take their width from the first destination. -/
def Instr.AccumDst (instr : Instr) : Prop :=
  ∀ r, instr.dsts.head? = some (.reg r) → r.sizeInBytes ≤ 8

/-- One transfer between registers, inside their eight bytes. -/
theorem Fits.xfer {narrow : Prop} {dstRow dstStart srcRow srcStart n : ℕ}
    (hd : dstRow < GRP_NUM + 1) (hs : srcRow < GRP_NUM + 1) (dst : dstStart + n ≤ 8)
    (src : srcStart + n ≤ 8) (low : narrow → dstStart + n ≤ 4) :
    Fits narrow [.r2rXfer dstRow dstStart srcRow srcStart n] :=
  Fits.one ⟨GprSpan.of_le hd (by omega), GprSpan.of_le hs (by omega)⟩ fun h => regSpan_low (low h)

theorem insertCwdeFamily_fits (accum : instr.AccumDst) :
    Fits instr.Narrow (insertCwdeFamily instr) := by
  unfold insertCwdeFamily
  split
  · next d hd =>
    split_ifs
    · exact Fits.nil
    · have wide := accum d hd
      refine Fits.xfer (by decide) (by decide) (by omega) (by omega) fun h => ?_
      have narrow : d.sizeInBytes ≤ 4 := h.dst_head hd
      omega
  · exact Fits.nil

theorem insertCdqFamily_fits (accum : instr.AccumDst) :
    Fits instr.Narrow (insertCdqFamily instr) := by
  unfold insertCdqFamily
  split
  · next d hd =>
    split_ifs
    · exact Fits.nil
    · have wide := accum d hd
      refine Fits.xfer (by decide) (by decide) (by omega) (by omega) fun h => ?_
      have narrow : d.sizeInBytes ≤ 4 := h.dst_head hd
      omega
  · exact Fits.nil

theorem insertMuldiv_fits : Fits instr.Narrow (insertMuldiv cpu instr) := by
  unfold insertMuldiv
  split
  · next r hr =>
    have hsrc : Opnd.reg r ∈ instr.srcs := List.mem_of_find?_eq_some hr
    split
    · next s hs =>
      have := Span.le_eight hs
      refine Fits.one ⟨Span.gprSpan hs le_rfl, by omega⟩ fun h => ?_
      have := Span.low hs (h.src hsrc)
      exact ternarySpan_low (by omega)
    · exact Fits.nil
  · next m hm =>
    have hsrc : Opnd.mem m ∈ instr.srcs := List.mem_of_find?_eq_some hm
    split_ifs
    · exact Fits.nil
    · exact Fits.memAddr (fun _ => m.size_le) fun h _ => ternarySpan_low (h.src hsrc)
  · exact Fits.nil

theorem insertImul_fits : Fits instr.Narrow (insertImul cpu instr) := by
  unfold insertImul
  split_ifs
  · exact insertMuldiv_fits
  · exact insertBinary_fits .imul

theorem insertXchg_fits : Fits instr.Narrow (insertXchg cpu instr) := by
  have dst : ∀ {r}, r ∈ gprRegs instr.dsts → instr.Narrow → r.sizeInBytes ≤ 4 :=
    fun hr h => h.dst (mem_of_mem_gprRegs hr)
  unfold insertXchg
  split
  · next r0 r rs _ hregs =>
    have last := List.mem_cons_of_mem r0 (List.getLast_mem (List.cons_ne_nil r rs))
    split
    · next a b ha hb =>
      refine Fits.one ⟨Span.gprSpan ha (by omega), Span.gprSpan hb (by omega)⟩ fun h => ?_
      have := Span.low ha (dst (hregs ▸ List.mem_cons_self) h)
      have := Span.low hb (dst (hregs ▸ last) h)
      exact regSpan_union_low (by omega) (by omega)
    · exact Fits.nil
  · next m r0 _ _ hregs =>
    split
    · next s hs =>
      refine Fits.memAddr (fun _ => Span.gprSpan hs le_rfl) fun h a row b hb => ?_
      rintro (hmem | hmem)
      · exact regSpan_low (Span.low hs (dst (hregs ▸ List.mem_cons_self) h)) row b hb hmem
      · exact reg_not_mem_memSpan hmem
    · exact Fits.nil
  · exact Fits.nil

theorem insertCmov_fits : Fits instr.Narrow (insertCmov cpu instr) := by
  unfold insertCmov
  split
  · next dst hdst =>
    split
    · exact Fits.nil
    · next d hd =>
      have low : instr.Narrow → d.start + d.n ≤ 4 := fun h => Span.low hd (h.dst_head hdst)
      cases found : instr.srcs.findSome? _ with
      | none => exact Fits.nil
      | some cs =>
        obtain ⟨o, hmem, ho⟩ := List.exists_of_findSome?_eq_some found
        cases o with
        | mem m =>
          have load : Fits instr.Narrow (withMemAddr cpu m fun addr =>
              .cmovM2r instr.predicate d.row d.start addr d.n) :=
            Fits.memAddr (fun _ => Span.gprSpan hd le_rfl) fun h _ => regSpan_low (low h)
          exact Option.some.inj ho ▸ load
        | reg r =>
          simp only [Option.ite_none_right_eq_some] at ho
          obtain ⟨-, ho⟩ := ho
          cases hs : regShadowSpan r with
          | none =>
            rw [hs] at ho
            exact Option.some.inj ho ▸ Fits.nil
          | some s =>
            rw [hs] at ho
            refine Option.some.inj ho ▸ Fits.one ⟨Span.gprSpan hd (by omega),
              Span.gprSpan hs (by omega)⟩ fun h => ?_
            have := low h
            exact regSpan_low (by omega)
        | immed v => cases ho
        | other => cases ho
  · exact Fits.nil

theorem Span.n_eq {r : RegId} {d : Span} (h : regShadowSpan r = some d) :
    d.n = r.sizeInBytes ∧ 0 < d.n := by
  cases r with
  | gpr g w =>
    rw [regShadowSpan_gpr] at h
    cases h
    exact ⟨rfl, w.bytes_pos⟩
  | high r =>
    rw [regShadowSpan_high] at h
    cases h
    exact ⟨rfl, Nat.one_pos⟩
  | null => simp [regShadowSpan, RegId.regIsGpr] at h
  | other => simp [regShadowSpan, RegId.regIsGpr] at h

theorem Span.size_le {r : RegId} {d : Span} (h : regShadowSpan r = some d) :
    r.sizeInBytes ≤ 8 := by
  have := Span.n_eq h
  have := Span.le_eight h
  omega

theorem insertCmp_fits : Fits instr.Narrow (insertCmp cpu instr) := by
  have low : ∀ {c : CleanCall}, c.writes = ∅ → instr.Narrow → c.LowOnly := by
    intro c hc _ row b _ hmem
    simp [hc] at hmem
  unfold insertCmp
  split
  · next r0 op1 _ _ =>
    split
    · exact Fits.nil
    · next d hd =>
      have size := Span.size_le hd
      have bounds : GprSpan d.row d.start r0.sizeInBytes := Span.gprSpan_of_le hd size
      dsimp only
      split
      · split
        · next s hs => exact Fits.one ⟨bounds, Span.gprSpan_of_le hs size, size⟩ (low rfl)
        · exact Fits.nil
      · exact Fits.memAddr (fun _ => ⟨bounds, size⟩) fun h _ => low rfl h
      · exact Fits.one ⟨bounds, size⟩ (low rfl)
      · exact Fits.nil
  · next m op1 _ _ =>
    split_ifs
    · exact Fits.nil
    · split
      · split
        · next s hs =>
          exact Fits.memAddr (fun _ => ⟨Span.gprSpan_of_le hs m.size_le, m.size_le⟩)
            fun h _ => low rfl h
        · exact Fits.nil
      · exact Fits.memAddr (fun _ => m.size_le) fun h _ => low rfl h
      · exact Fits.nil
  · exact Fits.nil

theorem insertShift_fits : Fits instr.Narrow (insertShift cpu instr) := by
  unfold insertShift
  split
  · next r hr =>
    split
    · next d hd =>
      exact Fits.one (Span.gprSpan hd le_rfl) fun h => regSpan_low (Span.low hd (h.dst_head hr))
    · exact Fits.nil
  · exact Fits.memAddr (fun _ => trivial) fun _ _ _ _ _ => reg_not_mem_memSpan
  · exact Fits.nil

theorem insertShldShrd_fits : Fits instr.Narrow (insertShldShrd instr) := by
  unfold insertShldShrd
  split
  · next dst hdst =>
    split_ifs
    · exact Fits.nil
    · split
      · exact Fits.nil
      · next d hd =>
        have low : instr.Narrow → d.start + d.n ≤ 4 := fun h => Span.low hd (h.dst_head hdst)
        split
        · next s found =>
          obtain ⟨r, -, hr⟩ := List.exists_of_findSome?_eq_some found
          simp only [ne_eq, ite_not, Option.ite_none_left_eq_some] at hr
          refine Fits.one ⟨Span.gprSpan hd (by omega), Span.gprSpan hr.2 (by omega)⟩ fun h => ?_
          have := low h
          exact regSpan_low (by omega)
        · exact Fits.one (Span.gprSpan hd le_rfl) fun h => regSpan_low (low h)
  · exact Fits.nil

theorem insertBswap_fits : Fits instr.Narrow (insertBswap instr) := by
  unfold insertBswap
  split
  · next r hr =>
    split
    · next d hd =>
      split_ifs
      · exact Fits.nil
      · exact Fits.one (Span.gprSpan hd le_rfl) fun h => regSpan_low (Span.low hd (h.dst_head hr))
    · exact Fits.nil
  · exact Fits.nil

theorem insertMovbe_fits : Fits instr.Narrow (insertMovbe cpu instr) := by
  unfold insertMovbe
  split
  · next r m hr _ =>
    split
    · next d hd =>
      exact Fits.memAddr (fun _ => Span.gprSpan hd le_rfl)
        fun h _ => regSpan_low (Span.low hd (h.dst_head hr))
    · exact Fits.nil
  · split
    · next s hs =>
      exact Fits.memAddr (fun _ => Span.gprSpan hs le_rfl) fun _ _ _ _ _ => reg_not_mem_memSpan
    · exact Fits.nil
  · exact Fits.nil

/-- The accumulator is EAX. -/
def Instr.EaxAccum (instr : Instr) : Prop :=
  ∀ r ∈ gprRegs instr.srcs, isAccum r = true → r = .gpr .rax .b4

/-- The span that the inserter takes for the accumulator is that of EAX. -/
theorem Instr.EaxAccum.low (h : instr.EaxAccum) {accum : RegId} {a : Span} {n : ℕ}
    (found : (gprRegs instr.srcs).find? isAccum = some accum) (span : regShadowSpan accum = some a)
    (hn : n ≤ 4) : a.start + n ≤ 4 := by
  obtain rfl := h accum (List.mem_of_find?_eq_some found) (List.find?_some found)
  rw [regShadowSpan_gpr] at span
  cases span
  simpa using hn

/-- The width of the exchange with memory, which is that of the source if the operand has none. -/
theorem exchangeWidth_le {k n b : ℕ} (hk : k ≤ b) (hn : n ≤ b) : (if k = 0 then n else k) ≤ b := by
  split_ifs
  · exact hn
  · exact hk

theorem insertCmpxchg_fits :
    Fits (instr.Narrow ∧ instr.EaxAccum) (insertCmpxchg cpu instr) := by
  unfold insertCmpxchg
  split
  · exact Fits.nil
  · next o ho =>
    dsimp only
    split
    · next s a foundSrc foundAccum =>
      obtain ⟨srcReg, hsrc, hs⟩ := Option.bind_eq_some_iff.mp foundSrc
      obtain ⟨accum, haccum, ha⟩ := Option.bind_eq_some_iff.mp foundAccum
      have hs8 := Span.le_eight hs
      have src : Opnd.reg srcReg ∈ instr.srcs :=
        mem_of_mem_gprRegs (List.mem_of_find?_eq_some hsrc)
      cases o with
      | mem m =>
        have wide := exchangeWidth_le m.size_le (by omega : s.n ≤ 8)
        refine Fits.memAddr (fun _ => ⟨Span.gprSpan_of_le hs wide, Span.gprSpan_of_le ha wide⟩)
          fun h addr row b hb => ?_
        have sourceLow := Span.low hs (h.1.src src)
        have narrow := exchangeWidth_le (h.1.dst_head ho) (by omega : s.n ≤ 4)
        rintro (hmem | hmem)
        · exact reg_not_mem_memSpan hmem
        · exact regSpan_low (h.2.low haccum ha narrow) row b hb hmem
      | reg rd =>
        dsimp only
        split
        · next d hd =>
          obtain ⟨width, pos⟩ := Span.n_eq hd
          have count : (if (Opnd.reg rd).sizeInBytes = 0 then s.n else (Opnd.reg rd).sizeInBytes) =
              d.n := by
            rw [if_neg (by change rd.sizeInBytes ≠ 0; omega)]
            exact width.symm
          have := Span.le_eight hd
          rw [count]
          refine Fits.one ⟨Span.gprSpan hd le_rfl, Span.gprSpan_of_le hs (by omega),
            Span.gprSpan_of_le ha (by omega)⟩ fun h => ?_
          have := Span.low hd (h.1.dst_head ho)
          exact regSpan_union_low this (h.2.low haccum ha (by omega))
        · exact Fits.nil
      | immed v => exact Fits.nil
      | other => exact Fits.nil
    · exact Fits.nil

theorem insertXadd_fits : Fits instr.Narrow (insertXadd cpu instr) := by
  unfold insertXadd
  split
  · next o rs _ hdsts =>
    have head : o ∈ instr.dsts := hdsts ▸ List.mem_cons_self
    have second : Opnd.reg rs ∈ instr.dsts := by simp [hdsts]
    split
    · exact Fits.nil
    · next s hs =>
      cases o with
      | reg rd =>
        dsimp only
        split
        · next d hd =>
          refine Fits.one ⟨Span.gprSpan hd (by omega), Span.gprSpan hs (by omega)⟩ fun h => ?_
          have := Span.low hd (h.dst head)
          have := Span.low hs (h.dst second)
          exact regSpan_union_low (by omega) (by omega)
        · exact Fits.nil
      | mem m =>
        refine Fits.memAddr (fun _ => Span.gprSpan hs le_rfl) fun h addr row b hb => ?_
        rintro (hmem | hmem)
        · exact reg_not_mem_memSpan hmem
        · exact regSpan_low (Span.low hs (h.dst second)) row b hb hmem
      | immed v => exact Fits.nil
      | other => exact Fits.nil
  · exact Fits.nil

theorem insertMovs_fits : Fits True (insertMovs cpu instr) := by
  unfold insertMovs
  split
  · exact insertM2mXfer_fits _ _ _
  · exact Fits.nil

theorem insertStos_fits : Fits True (insertStos cpu instr) := by
  unfold insertStos
  split
  · exact insertMovR2m_fits _ _
  · exact Fits.nil

theorem insertLods_fits :
    Fits (∀ r ∈ gprRegs instr.dsts, isAccum r = true → r.sizeInBytes ≤ 4)
      (insertLods cpu instr) := by
  unfold insertLods
  split
  · next s accum _ found =>
    exact (insertMovM2r_fits accum s).mono fun h =>
      h accum (List.mem_of_find?_eq_some found) (List.find?_some found)
  · exact Fits.nil

end Inserters

/-- What DynamoRIO's decoder promises of the routed instructions: the destination of a sign
extension of the accumulator is a register of at most 64 bits. -/
def Instr.Decoded (instr : Instr) : Prop :=
  instr.opcode = .cwde ∨ instr.opcode = .cdq → instr.AccumDst

/-- The operands are at most 32 bits wide, and EAX is the accumulator of CMPXCHG. The index
register of LODS, which is 64 bits wide, does not count; LEAVE writes RSP and RBP whole and has
no such form. -/
structure Instr.Is32 (instr : Instr) : Prop where
  notLeave : instr.opcode ≠ .leave
  width : ∀ o ∈ instr.srcs ++ instr.dsts,
    o.sizeInBytes ≤ 4 ∨ (instr.opcode = .lods ∧ o = .reg (.gpr .rsi .b8))
  accum : instr.opcode = .cmpxchg → instr.EaxAccum

theorem Instr.Is32.narrow {instr : Instr} (h : instr.Is32) (hop : instr.opcode ≠ .lods) :
    instr.Narrow := by
  intro o ho
  obtain size | ⟨lods, -⟩ := h.width o ho
  · exact size
  · exact absurd lods hop

theorem Instr.Is32.lods_accum {instr : Instr} (h : instr.Is32) :
    ∀ r ∈ gprRegs instr.dsts, isAccum r = true → r.sizeInBytes ≤ 4 := by
  intro r hr accum
  obtain size | ⟨-, index⟩ := h.width (.reg r) (List.mem_append_right _ (mem_of_mem_gprRegs hr))
  · exact size
  · obtain rfl := Opnd.reg.inj index
    simp [isAccum, RegId.regToPointerSized] at accum

theorem insertLeave_bounds {cpu : Cpu} {instr : Instr} : Fits False (insertLeave cpu instr) := by
  refine ((insertR2rXfer_fits _ _).mono False.elim).append ?_
  split
  · exact (insertMovM2r_fits _ _).mono False.elim
  · exact Fits.nil

theorem insInspectDr_fits {cpu : Cpu} {instr : Instr} (decoded : instr.Decoded) :
    Fits instr.Is32 (insInspectDr cpu instr) := by
  unfold insInspectDr
  cases hop : instr.opcode with
  | movLd => exact insertMovLd_fits.mono fun h => h.narrow (by simp [hop])
  | movSt => exact insertMovSt_fits.mono fun h => h.narrow (by simp [hop])
  | movImm => exact insertMovImm_fits.mono fun h => h.narrow (by simp [hop])
  | cmp => exact insertCmp_fits.mono fun h => h.narrow (by simp [hop])
  | add | and | or | xor | sub | sbb =>
    exact (insertBinary_fits _).mono fun h => h.narrow (by simp [hop])
  | movzx | movsx | movsxd => exact (insertExtend_fits _).mono fun h => h.narrow (by simp [hop])
  | lea => exact insertLea_fits.mono fun h => h.narrow (by simp [hop])
  | push => exact insertPush_fits.mono fun h => h.narrow (by simp [hop])
  | pop => exact insertPop_fits.mono fun h => h.narrow (by simp [hop])
  | cmps => exact insertCmps_fits.mono fun h => h.narrow (by simp [hop])
  | leave => exact insertLeave_bounds.mono fun h => h.notLeave hop
  | bsf | bsr => exact insertXfer_fits.mono fun h => h.narrow (by simp [hop])
  | cwde =>
    exact (insertCwdeFamily_fits (decoded (.inl hop))).mono fun h => h.narrow (by simp [hop])
  | cdq => exact (insertCdqFamily_fits (decoded (.inr hop))).mono fun h => h.narrow (by simp [hop])
  | mul | div | idiv => exact insertMuldiv_fits.mono fun h => h.narrow (by simp [hop])
  | imul => exact insertImul_fits.mono fun h => h.narrow (by simp [hop])
  | xchg => exact insertXchg_fits.mono fun h => h.narrow (by simp [hop])
  | cmovcc => exact insertCmov_fits.mono fun h => h.narrow (by simp [hop])
  | shl | shr | sar | rol | ror | rcl | rcr =>
    exact insertShift_fits.mono fun h => h.narrow (by simp [hop])
  | shld | shrd => exact insertShldShrd_fits.mono fun h => h.narrow (by simp [hop])
  | bswap => exact insertBswap_fits.mono fun h => h.narrow (by simp [hop])
  | movbe => exact insertMovbe_fits.mono fun h => h.narrow (by simp [hop])
  | cmpxchg =>
    exact insertCmpxchg_fits.mono fun h => ⟨h.narrow (by simp [hop]), h.accum hop⟩
  | xadd => exact insertXadd_fits.mono fun h => h.narrow (by simp [hop])
  | movs => exact insertMovs_fits.mono fun _ => trivial
  | stos => exact insertStos_fits.mono fun _ => trivial
  | lods => exact insertLods_fits.mono fun h => h.lods_accum
  | other => exact Fits.nil

end LibdftDr
