import LibdftDr.Library.Assignments
import LibdftDr.Core.Places

/-!
# Register-to-register calls act at once

The loops of the handlers read and write one register file, and their operands may be parts of
one register. `CleanCall.assignments` says what each handler means to assign, and each handler
is that assignment, carried out on the tags before the call: two operands share a byte of the
file only at one index, and the extensions and LEA read no byte that they have overwritten,
but for the sign of MOVSX, which then is a copy of itself.
-/
namespace LibdftDr
open Library Library.Action

/-- Row and byte in `gpr_file`. -/
abbrev FileByte := ℕ × ℕ

/-- The register file, with the combination of tags. -/
def gprStore : Store Shadow FileByte Tag Fault where
  cells s c := s.gprFile c.1 c.2
  set m s := { s with gprFile := fun row byte => m (row, byte) }
  op := combine
  set_cells _ := rfl
  cells_set _ _ := rfl
  set_set _ _ _ := rfl
  cells_op {a b v s t} run := by
    simp only [combine] at run
    split at run
    · cases run
      rfl
    · cases run
  op_set a b m s := by
    simp only [combine]
    cases tagCombine a b s.sets <;> rfl

section Accesses

variable {row byte : ℕ} (h : InFile row byte)
include h

theorem gprGet_eq : gprGet row byte = gprStore.get (row, byte) := funext fun _ => if_pos h

theorem gprSet_eq (t : Tag) : gprSet row byte t = gprStore.store [(row, byte)] t := by
  funext s
  refine (if_pos h).trans ?_
  have file : (s.withGpr row byte t).gprFile =
      fun r b => if (r, b) = (row, byte) then t else s.gprFile r b := by
    funext r b
    simp only [Shadow.withGpr, Function.update_apply, Prod.mk.injEq]
    split_ifs <;> simp_all
  simp only [Store.store, List.mem_singleton]
  change Except.ok (PUnit.unit, { s with gprFile := (s.withGpr row byte t).gprFile }) = _
  rw [file]
  rfl

end Accesses

/-! ## Operands -/

/-- The first `n` bytes of the span that `reg_shadow_span` gives some register. -/
def RegOperand (row start n : ℕ) : Prop :=
  ∃ r sp, regShadowSpan r = some sp ∧ sp.row = row ∧ sp.start = start ∧ 0 < n ∧ n ≤ sp.n

/-- Byte `i` from `start` on. -/
def fileByte (row start i : ℕ) : FileByte := (row, start + i)

namespace RegOperand

variable {row start row' start' n i j : ℕ}

theorem shape {r : RegId} {sp : Span} (h : regShadowSpan r = some sp) :
    sp.row < GRP_NUM ∧ (sp.start = 0 ∧ sp.n ≤ 8 ∨ sp.start = 1 ∧ sp.n = 1) := by
  cases r with
  | gpr g w =>
    rw [regShadowSpan_gpr] at h
    cases h
    exact ⟨g.row_lt, .inl ⟨rfl, w.bytes_le⟩⟩
  | high r =>
    rw [regShadowSpan_high] at h
    cases h
    exact ⟨r.full.row_lt, .inr ⟨rfl, rfl⟩⟩
  | null => simp [regShadowSpan, RegId.regIsGpr] at h
  | other => simp [regShadowSpan, RegId.regIsGpr] at h

theorem le_eight (h : RegOperand row start n) : n ≤ 8 := by
  obtain ⟨r, sp, span, -, -, -, le⟩ := h
  have := (shape span).2
  omega

theorem ne_zero (h : RegOperand row start n) : n ≠ 0 := by
  obtain ⟨r, sp, -, -, -, pos, -⟩ := h
  omega

theorem gprSpan (h : RegOperand row start n) : GprSpan row start n := by
  obtain ⟨r, sp, span, rfl, rfl, -, le⟩ := h
  have := shape span
  exact GprSpan.of_le (by omega) (by omega)

/-- The same bytes of the row, counted from its start. -/
theorem gprSpan_zero (h : RegOperand row start n) : GprSpan row 0 n := by
  have := h.le_eight
  exact GprSpan.of_le h.gprSpan.row (by omega)

theorem inFile (h : RegOperand row start n) (hi : i < n) : InFile row (start + i) :=
  h.gprSpan.inFile hi

/-- Operands share a byte of the file only at one index, whatever parts of registers they are. -/
theorem index_eq (h : RegOperand row start n) (h' : RegOperand row' start' n) (hi : i < n)
    (hj : j < n)
    (same : fileByte row start i = fileByte row' start' j) : i = j := by
  obtain ⟨r, sp, span, rfl, rfl, -, le⟩ := h
  obtain ⟨r', sp', span', rfl, rfl, -, le'⟩ := h'
  have shape := (shape span).2
  have shape' := (RegOperand.shape span').2
  simp only [fileByte, Prod.mk.injEq] at same
  omega

end RegOperand

/-! ## What the calls assign -/

/-- `g 0` to `g (n - 1)`. -/
def eachByte (n : ℕ) (g : ℕ → List (Assignment FileByte Tag)) : List (Assignment FileByte Tag) :=
  (List.range n).flatMap g

theorem mem_eachByte {n : ℕ} {g : ℕ → List (Assignment FileByte Tag)}
    {a : Assignment FileByte Tag} : a ∈ eachByte n g ↔ ∃ i < n, a ∈ g i := by
  simp only [eachByte, List.mem_flatMap, List.mem_range]

theorem forall_eachByte {n : ℕ} {g : ℕ → List (Assignment FileByte Tag)}
    {P : Assignment FileByte Tag → Prop} :
    (∀ a ∈ eachByte n g, P a) ↔ ∀ i < n, ∀ a ∈ g i, P a := by
  simp only [mem_eachByte]
  exact ⟨fun h i hi a ha => h a ⟨i, hi, ha⟩, fun h a ⟨i, hi, ha⟩ => h i hi a ha⟩

/-- Byte `i` of RDX and of RAX. -/
def accumBytes (i : ℕ) : List FileByte := [(DFT_REG_RDX, i), (DFT_REG_RAX, i)]

/-- Each of `bytes` gets the tags of `e` as well. -/
def adjoins (bytes : List FileByte) (e : Formula FileByte Tag) : List (Assignment FileByte Tag) :=
  bytes.map fun b => ⟨[b], .op (.place b) e⟩

theorem mem_adjoins {bytes : List FileByte} {e : Formula FileByte Tag}
    {a : Assignment FileByte Tag} :
    a ∈ adjoins bytes e ↔ ∃ b ∈ bytes, a = ⟨[b], .op (.place b) e⟩ := by
  simp only [adjoins, List.mem_map, eq_comm]

theorem adjoins_dsts {bytes : List FileByte} {e : Formula FileByte Tag} :
    ∀ a ∈ adjoins bytes e, ∀ c ∈ a.dsts, c ∈ bytes := by
  intro a ha c hc
  obtain ⟨b, hb, rfl⟩ := mem_adjoins.mp ha
  rwa [List.mem_singleton.mp hc]

/-- The union of the bytes of a span, from the left. -/
def spanUnion (row start n : ℕ) : Formula FileByte Tag :=
  .through (.place (row, start)) (fun i => fileByte row start (1 + i)) (n - 1)

/-- What the extensions do with the source. -/
def copies (dr sr ss srcn : ℕ) : List (Assignment FileByte Tag) :=
  eachByte srcn fun i => [⟨[(dr, i)], .place (fileByte sr ss i)⟩]

theorem mem_copies {dr sr ss srcn : ℕ} {a : Assignment FileByte Tag} :
    a ∈ copies dr sr ss srcn ↔ ∃ i < srcn, a = ⟨[(dr, i)], .place (fileByte sr ss i)⟩ := by
  simp [copies, eachByte]

/-- What each of the eleven register-to-register handlers gives to which bytes. -/
def CleanCall.assignments : CleanCall → List (Assignment FileByte Tag)
  | .r2rXfer dr ds sr ss n => eachByte n fun i => [⟨[fileByte dr ds i], .place (fileByte sr ss i)⟩]
  | .binaryR2r dr ds sr ss n => eachByte n fun i =>
    [⟨[fileByte dr ds i], .op (.place (fileByte dr ds i)) (.place (fileByte sr ss i))⟩]
  | .xchgR2r ar as' br bs n => eachByte n fun i =>
    [⟨[fileByte ar as' i], .place (fileByte br bs i)⟩,
      ⟨[fileByte br bs i], .place (fileByte ar as' i)⟩]
  | .xaddR2r dr ds sr ss n => eachByte n fun i =>
    [⟨[fileByte dr ds i, fileByte sr ss i],
      .op (.place (fileByte dr ds i)) (.place (fileByte sr ss i))⟩]
  | .cmpxchgReg dr ds sr ss ar as' n => eachByte n fun i =>
    [⟨[fileByte dr ds i, fileByte ar as' i],
      .op (.op (.place (fileByte dr ds i)) (.place (fileByte sr ss i)))
        (.place (fileByte ar as' i))⟩]
  | .movzxR2r dr sr ss srcn dstn =>
    copies dr sr ss srcn ++
      [⟨(List.range (dstn - srcn)).map (fileByte dr srcn), .const clearedVal⟩]
  | .movsxR2r dr sr ss srcn dstn =>
    if srcn = 0 then []
    else copies dr sr ss srcn ++
      [⟨(List.range (dstn - srcn)).map (fileByte dr srcn), .place (sr, ss + srcn - 1)⟩]
  | .shiftR dr ds n =>
    if n = 0 then [] else [⟨(List.range n).map (fileByte dr ds), spanUnion dr ds n⟩]
  | .shldR2r dr ds sr ss n =>
    if n = 0 then []
    else [⟨(List.range n).map (fileByte dr ds), (spanUnion dr ds n).through (fileByte sr ss) n⟩]
  | .ternaryR2r sr ss n =>
    if n = 1 then adjoins [(DFT_REG_RAX, 0), (DFT_REG_RAX, 1)] (.place (fileByte sr ss 0))
    else eachByte n fun i => adjoins (accumBytes i) (.place (fileByte sr ss i))
  | .leaProp _ dr br bs xr xs n => eachByte n fun i =>
    [⟨[(dr, i)], .op (.place (fileByte br bs i)) (.place (fileByte xr xs i))⟩]
  | _ => []

/-- One of the eleven handlers on operands that `reg_shadow_span` gives; the registers of an
address may be absent. -/
def CleanCall.RegToReg : CleanCall → Prop
  | .r2rXfer dr ds sr ss n | .binaryR2r dr ds sr ss n | .xchgR2r dr ds sr ss n
  | .xaddR2r dr ds sr ss n | .shldR2r dr ds sr ss n => RegOperand dr ds n ∧ RegOperand sr ss n
  | .cmpxchgReg dr ds sr ss ar as' n =>
    RegOperand dr ds n ∧ RegOperand sr ss n ∧ RegOperand ar as' n
  | .movzxR2r dr sr ss srcn dstn | .movsxR2r dr sr ss srcn dstn =>
    (∃ ds, RegOperand dr ds dstn) ∧ RegOperand sr ss srcn
  | .shiftR r s n | .ternaryR2r r s n => RegOperand r s n
  | .leaProp _ dr br bs xr xs n =>
    (∃ ds, RegOperand dr ds n) ∧ (∃ r, addrRegSpan r = (br, bs)) ∧ ∃ r, addrRegSpan r = (xr, xs)
  | _ => False

section Calls

variable {dr ds sr ss ar as' n : ℕ}

/-- The bytes that round `i` touches. -/
def lane (ops : List (ℕ × ℕ)) (i : ℕ) : Set FileByte := {c | ∃ o ∈ ops, c = fileByte o.1 o.2 i}

theorem lane_apart (ops : List (ℕ × ℕ)) (h : ∀ o ∈ ops, RegOperand o.1 o.2 n) :
    ∀ i < n, ∀ j < i, ∀ c ∈ lane ops j, c ∉ lane ops i := by
  rintro i hi j hj c ⟨o, ho, rfl⟩ ⟨o', ho', same⟩
  have := (h o ho).index_eq (h o' ho') (by omega) hi same
  omega

/-- Rounds that keep to their bytes of the operands. -/
theorem lanes_assigns {body : ℕ → Engine PUnit} {g : ℕ → List (Assignment FileByte Tag)}
    (ops : List (ℕ × ℕ)) (h : ∀ o ∈ ops, RegOperand o.1 o.2 n)
    (step : ∀ i < n, gprStore.Assigns (g i) (body i))
    (touched : ∀ i, ∀ a ∈ g i, (∀ c ∈ a.dsts, c ∈ lane ops i) ∧
      ∀ c ∈ a.value.reads, c ∈ lane ops i) :
    gprStore.Assigns (eachByte n g) (loop n body) :=
  Store.Assigns.loop_lanes step (lane_apart ops h) (fun i _ a ha => (touched i a ha).1)
    fun i _ a ha => (touched i a ha).2

theorem r2rXfer_assigns (hd : RegOperand dr ds n) (hs : RegOperand sr ss n) :
    gprStore.Assigns (CleanCall.assignments (.r2rXfer dr ds sr ss n)) (r2rXfer dr ds sr ss n) := by
  refine lanes_assigns [(dr, ds), (sr, ss)] (by simp [hd, hs])
    (fun i hi => ⟨?_, List.pairwise_singleton _ _⟩) (by simp [lane, Formula.reads, -Prod.forall])
  funext s
  rw [gprGet_eq (hs.inFile hi), Store.assign_singleton, Store.get_bind, gprSet_eq (hd.inFile hi)]
  rfl

theorem binaryR2r_assigns (hd : RegOperand dr ds n) (hs : RegOperand sr ss n) :
    gprStore.Assigns (CleanCall.assignments (.binaryR2r dr ds sr ss n))
      (binaryR2r dr ds sr ss n) := by
  refine lanes_assigns [(dr, ds), (sr, ss)] (by simp [hd, hs])
    (fun i hi => ⟨?_, List.pairwise_singleton _ _⟩) (by simp [lane, Formula.reads, -Prod.forall])
  funext s
  simp only [gprUnite, gprGet_eq (hs.inFile hi), gprGet_eq (hd.inFile hi), Store.get_bind,
    gprSet_eq (hd.inFile hi), Store.assign_singleton]
  rfl

theorem xaddR2r_assigns (hd : RegOperand dr ds n) (hs : RegOperand sr ss n) :
    gprStore.Assigns (CleanCall.assignments (.xaddR2r dr ds sr ss n)) (xaddR2r dr ds sr ss n) := by
  refine lanes_assigns [(dr, ds), (sr, ss)] (by simp [hd, hs])
    (fun i hi => ⟨?_, List.pairwise_singleton _ _⟩) (by simp [lane, Formula.reads, -Prod.forall])
  funext s
  simp only [gprGet_eq (hs.inFile hi), gprGet_eq (hd.inFile hi), Store.get_bind,
    gprSet_eq (hd.inFile hi), gprSet_eq (hs.inFile hi), Store.store_append, Store.assign_singleton]
  rfl

theorem cmpxchgReg_assigns (hd : RegOperand dr ds n) (hs : RegOperand sr ss n)
    (ha : RegOperand ar as' n) :
    gprStore.Assigns (CleanCall.assignments (.cmpxchgReg dr ds sr ss ar as' n))
      (cmpxchgReg dr ds sr ss ar as' n) := by
  refine lanes_assigns [(dr, ds), (sr, ss), (ar, as')] (by simp [hd, hs, ha])
    (fun i hi => ⟨?_, List.pairwise_singleton _ _⟩) (by simp [lane, Formula.reads, -Prod.forall])
  funext s
  simp only [gprGet_eq (hs.inFile hi), gprGet_eq (hd.inFile hi), gprGet_eq (ha.inFile hi),
    Store.get_bind, gprSet_eq (hd.inFile hi), gprSet_eq (ha.inFile hi), Store.store_append,
    Store.assign_singleton, Store.evalOn, pure_bind, bind_assoc]
  rfl

theorem xchgR2r_assigns (ha : RegOperand dr ds n) (hb : RegOperand sr ss n) :
    gprStore.Assigns (CleanCall.assignments (.xchgR2r dr ds sr ss n)) (xchgR2r dr ds sr ss n) := by
  refine lanes_assigns [(dr, ds), (sr, ss)] (by simp [ha, hb]) (fun i hi => ⟨?_, ?_⟩)
    (by simp [lane, Formula.reads, -Prod.forall])
  · funext s
    simp only [gprGet_eq (ha.inFile hi), gprGet_eq (hb.inFile hi), gprSet_eq (ha.inFile hi),
      gprSet_eq (hb.inFile hi), Store.get_bind]
    rfl
  · refine List.pairwise_pair.mpr fun c hc hc' => ?_
    simp only [List.mem_singleton] at hc hc'
    exact ⟨c, by rw [← hc'], by rw [← hc]⟩

variable {srcn dstn : ℕ}

/-- Rounds that read no byte of the row before the one that they write. -/
theorem forward_assigns {body : ℕ → Engine PUnit} {e : ℕ → Formula FileByte Tag}
    (step : ∀ i < n, body i = gprStore.assign [⟨[(dr, i)], e i⟩])
    (ahead : ∀ i < n, ∀ c ∈ (e i).reads, i ≤ c.2) :
    gprStore.Assigns (eachByte n fun i => [⟨[(dr, i)], e i⟩]) (loop n body) := by
  refine Store.Assigns.loop (fun i hi => ⟨step i hi, List.pairwise_singleton _ _⟩)
    fun i hi j lt => Store.Follows.of_disjoint fun c hc => ?_
  obtain rfl := List.mem_singleton.mp hc
  constructor
  · intro reads
    have := ahead i hi (dr, j) reads
    omega
  · intro writes
    have same : j = i := congrArg Prod.snd (List.mem_singleton.mp writes)
    omega

theorem copies_assigns (hd : RegOperand dr ds dstn) (hs : RegOperand sr ss srcn) :
    gprStore.Assigns (copies dr sr ss srcn)
      (loop srcn fun i => do
        let t ← gprGet sr (ss + i)
        gprSet dr i t) := by
  have h8 := hs.le_eight
  refine forward_assigns (fun i hi => ?_) fun i hi c hc => ?_
  · have file : InFile dr i := ⟨hd.gprSpan.row, by rw [TAGS_PER_GPR]; omega⟩
    funext s
    rw [gprGet_eq (hs.inFile hi), Store.assign_singleton, Store.get_bind, gprSet_eq file]
    rfl
  · rw [Set.mem_singleton_iff.mp hc]
    exact Nat.le_add_left i ss

/-- The bytes behind the copied ones may be filled last, with a byte that the copies have not
changed or have changed to itself. -/
theorem copies_follows {e : Formula FileByte Tag}
    (kept : ∀ i < srcn, (dr, i) ∈ e.reads → fileByte sr ss i = (dr, i)) :
    Store.Follows (copies dr sr ss srcn)
      [⟨(List.range (dstn - srcn)).map (fileByte dr srcn), e⟩] := by
  constructor
  · intro a ha b hb c hc mem
    obtain ⟨i, hi, rfl⟩ := mem_copies.mp ha
    obtain rfl := List.mem_singleton.mp hb
    obtain rfl := List.mem_singleton.mp mem
    exact congrArg Formula.place (kept i hi hc)
  · intro a ha b hb c hc mem
    obtain ⟨i, hi, rfl⟩ := mem_copies.mp ha
    obtain rfl := List.mem_singleton.mp hb
    obtain rfl := List.mem_singleton.mp hc
    obtain ⟨k, -, same⟩ := List.mem_map.mp mem
    have behind : srcn + k = i := congrArg Prod.snd same
    omega

/-- The copies and the bytes behind them are all bytes that an extension writes. -/
theorem extension_covers (e : Formula FileByte Tag) : ∀ b ∈ regSpan dr 0 (max srcn dstn),
    ∃ a ∈ copies dr sr ss srcn ++ [⟨(List.range (dstn - srcn)).map (fileByte dr srcn), e⟩],
      ∃ d ∈ a.dsts, b = .reg d.1 d.2 := by
  rintro b ⟨i, hi, rfl⟩
  by_cases copied : i < srcn
  · refine ⟨_, List.mem_append_left _ (mem_copies.mpr ⟨i, copied, rfl⟩), _, .head _, ?_⟩
    rw [Nat.zero_add]
  · obtain ⟨k, rfl⟩ : ∃ k, i = srcn + k := ⟨i - srcn, by omega⟩
    have filled : k < dstn - srcn := by omega
    refine ⟨_, List.mem_append_right _ (.head _), fileByte dr srcn k,
      List.mem_map_of_mem (List.mem_range.mpr filled), ?_⟩
    rw [Nat.zero_add]
    rfl

/-- Storing one tag in the bytes of a span. -/
theorem fill_eq {row start : ℕ} (file : ∀ i < n, InFile row (start + i)) (t : Tag) :
    loop n (fun i => gprSet row (start + i) t) =
      gprStore.store ((List.range n).map (fileByte row start)) t := by
  rw [← Store.loop_store]
  exact loop_congr fun i hi => gprSet_eq (file i hi) t

/-- The bytes of the row that an extension fills. -/
theorem RegOperand.inFile_behind (hd : RegOperand dr ds dstn) :
    ∀ i < dstn - srcn, InFile dr (srcn + i) := by
  intro i hi
  have := hd.le_eight
  exact ⟨hd.gprSpan.row, by rw [TAGS_PER_GPR]; omega⟩

theorem movzxR2r_assigns (hd : RegOperand dr ds dstn) (hs : RegOperand sr ss srcn) :
    gprStore.Assigns (CleanCall.assignments (.movzxR2r dr sr ss srcn dstn))
      (movzxR2r dr sr ss srcn dstn) := by
  refine (copies_assigns hd hs).bind ⟨?_, List.pairwise_singleton _ _⟩
    (copies_follows fun i _ mem => absurd mem (Set.notMem_empty _))
  funext s
  rw [fill_eq hd.inFile_behind, Store.assign_singleton]
  rfl

theorem movsxR2r_assigns (hd : RegOperand dr ds dstn) (hs : RegOperand sr ss srcn) :
    gprStore.Assigns (CleanCall.assignments (.movsxR2r dr sr ss srcn dstn))
      (movsxR2r dr sr ss srcn dstn) := by
  rw [movsxR2r, CleanCall.assignments]
  split_ifs with none
  · exact .nil
  refine (copies_assigns hd hs).bind ⟨?_, List.pairwise_singleton _ _⟩
    (copies_follows fun i hi mem => ?_)
  · have last : InFile sr (ss + srcn - 1) := by
      have := hs.inFile (by omega : srcn - 1 < srcn)
      rwa [Nat.add_sub_assoc (by omega)]
    funext s
    simp only [gprGet_eq last, Store.get_bind, fill_eq hd.inFile_behind, Store.assign_singleton]
    rfl
  · -- the copies reach the sign only where the source starts its row, and is that row
    obtain ⟨rfl, rfl⟩ := Prod.mk.inj (Set.mem_singleton_iff.mp mem)
    obtain rfl : ss = 0 := by omega
    simp [fileByte]

/-- Uniting the bytes of a span to what has been evaluated. -/
theorem unite_eq {e : Formula FileByte Tag} {row start : ℕ} {s : Shadow}
    (file : ∀ i < n, InFile row (start + i)) :
    (gprStore.evalOn (gprStore.cells s) e >>= unite n fun i => gprGet row (start + i)) s =
      gprStore.evalOn (gprStore.cells s) (e.through (fileByte row start) n) s := by
  have reads : (unite n fun i => gprGet row (start + i)) =
      fold n fun i u => gprStore.get (fileByte row start i) >>= gprStore.op u := by
    funext u
    refine fold_congr (fun i hi => funext fun u => ?_) u
    simp only [gprGet_eq (file i hi)]
    rfl
  rw [reads, Store.evalOn_through]

theorem spanUnion_eq (hd : RegOperand dr ds n) (pos : n ≠ 0) (s : Shadow) :
    (gprGet dr ds >>= unite (n - 1) fun i => gprGet dr (ds + (1 + i))) s =
      gprStore.evalOn (gprStore.cells s) (spanUnion dr ds n) s := by
  have first : InFile dr ds := hd.inFile (by omega : 0 < n)
  have rest : ∀ i < n - 1, InFile dr (ds + 1 + i) := fun i hi => by
    rw [Nat.add_assoc]
    exact hd.inFile (by omega)
  have spans : (fun i => fileByte dr ds (1 + i)) = fileByte dr (ds + 1) := by
    funext i
    rw [fileByte, fileByte, Nat.add_assoc]
  rw [spanUnion, spans, ← unite_eq rest, gprGet_eq first]
  simp only [Nat.add_assoc]
  rfl

theorem shiftR_assigns (hd : RegOperand dr ds n) :
    gprStore.Assigns (CleanCall.assignments (.shiftR dr ds n)) (shiftR dr ds n) := by
  rw [shiftR, CleanCall.assignments]
  split_ifs with none
  · exact .nil
  refine ⟨?_, List.pairwise_singleton _ _⟩
  funext s
  rw [Store.assign_singleton, ← bind_congr_left (spanUnion_eq hd none s)]
  simp only [fill_eq fun i hi => hd.inFile hi, bind_assoc]

theorem shldR2r_assigns (hd : RegOperand dr ds n) (hs : RegOperand sr ss n) :
    gprStore.Assigns (CleanCall.assignments (.shldR2r dr ds sr ss n)) (shldR2r dr ds sr ss n) := by
  rw [shldR2r, CleanCall.assignments]
  split_ifs with none
  · exact .nil
  refine ⟨?_, List.pairwise_singleton _ _⟩
  funext s
  have both : ((gprGet dr ds >>= unite (n - 1) fun i => gprGet dr (ds + (1 + i))) >>=
        unite n fun i => gprGet sr (ss + i)) s =
      gprStore.evalOn (gprStore.cells s) ((spanUnion dr ds n).through (fileByte sr ss) n) s := by
    rw [bind_congr_left (spanUnion_eq hd none s), unite_eq fun i hi => hs.inFile hi]
  rw [Store.assign_singleton, ← bind_congr_left both]
  simp only [fill_eq fun i hi => hd.inFile hi, bind_assoc]

/-- Two bytes that get one tag as well. -/
theorem gprUnite_assigns {r r' b b' : ℕ} (t : Tag) (h : InFile r b) (h' : InFile r' b')
    (ne : (r, b) ≠ (r', b')) :
    gprStore.Assigns (adjoins [(r, b), (r', b')] (.const t)) (do
      gprUnite r b t
      gprUnite r' b' t) := by
  have one : ∀ {r b}, InFile r b →
      gprStore.Assigns (adjoins [(r, b)] (.const t)) (gprUnite r b t) := by
    intro r b file
    refine ⟨?_, List.pairwise_singleton _ _⟩
    funext s
    simp only [gprUnite, gprGet_eq file, gprSet_eq file, Store.get_bind, adjoins, List.map_cons,
      List.map_nil, Store.assign_singleton]
    rfl
  refine (one h).bind (one h') (Store.Follows.of_disjoint fun c hc => ?_)
  rw [List.mem_singleton.mp hc]
  constructor
  · rintro (same | none)
    · exact ne same
    · exact none
  · exact fun same => ne (List.mem_singleton.mp same)

/-- The source is read into an array first, so its bytes are constants of the loop. -/
theorem adjoins_congr (s : Shadow) (bytes : List FileByte) (c : FileByte) :
    List.Forall₂ (fun a b => a.dsts = b.dsts ∧ gprStore.evalOn (gprStore.cells s) a.value =
        gprStore.evalOn (gprStore.cells s) b.value)
      (adjoins bytes (.const (s.gprFile c.1 c.2))) (adjoins bytes (.place c)) := by
  induction bytes with
  | nil => exact .nil
  | cons b bytes ih => exact .cons ⟨rfl, rfl⟩ ih

theorem rax_inFile {b : ℕ} (hb : b < 8) : InFile DFT_REG_RAX b :=
  ⟨by decide, hb.trans (by decide)⟩

theorem rdx_inFile {b : ℕ} (hb : b < 8) : InFile DFT_REG_RDX b :=
  ⟨by decide, hb.trans (by decide)⟩

theorem accumBytes_apart : ∀ i < n, ∀ j < i, ∀ c ∈ {c : FileByte | c ∈ accumBytes j},
    c ∉ {c | c ∈ accumBytes i} := by
  intro i _ j lt c hc hc'
  simp only [accumBytes, Set.mem_ofPred_eq, List.mem_cons, List.not_mem_nil, or_false] at hc hc'
  grind

/-- The rounds of `ternary_combine` on a fixed source. -/
theorem ternaryRounds_assigns (src : ℕ → Tag) (h8 : n ≤ 8) :
    gprStore.Assigns (eachByte n fun i => adjoins (accumBytes i) (.const (src i)))
      (loop n fun i => do
        gprUnite DFT_REG_RDX i (src i)
        gprUnite DFT_REG_RAX i (src i)) := by
  have rows : DFT_REG_RDX ≠ DFT_REG_RAX := by decide
  refine Store.Assigns.loop_lanes (fun i hi => ?_) accumBytes_apart ?_ ?_
  · exact gprUnite_assigns _ (rdx_inFile (by omega)) (rax_inFile (by omega)) (by simp [rows])
  · exact fun i _ => adjoins_dsts
  · rintro i _ a ha c hc
    obtain ⟨b, hb, rfl⟩ := mem_adjoins.mp ha
    rcases hc with rfl | none
    · exact hb
    · exact absurd none (Set.notMem_empty c)

theorem ternaryR2r_assigns (hs : RegOperand sr ss n) :
    gprStore.Assigns (CleanCall.assignments (.ternaryR2r sr ss n)) (ternaryR2r sr ss n) := by
  have h8 := hs.le_eight
  have source : ∀ s, gather (min n 8) (fun i => gprGet sr (ss + i)) s =
      .ok (Vector.ofFn fun i : Fin (min n 8) => s.gprFile sr (ss + i), s) := fun s =>
    gather_of_pure _ (fun i => s.gprFile sr (ss + i)) fun i hi => if_pos (hs.inFile (by omega))
  have read : ∀ (s : Shadow) (i : ℕ), i < n →
      srcTag (Vector.ofFn fun i : Fin (min n 8) => s.gprFile sr (ss + i)) i =
        pure (s.gprFile sr (ss + i)) := fun s i hi => by
    rw [srcTag, dif_pos (by omega)]
    simp
  rw [CleanCall.assignments]
  split_ifs with one
  · subst one
    refine ⟨?_, by simp [adjoins, Store.Agree]⟩
    funext s
    have both := (gprUnite_assigns (s.gprFile sr (ss + 0)) (rax_inFile (by omega : 0 < 8))
      (rax_inFile (by omega : 1 < 8)) (by simp)).eq
    rw [ternaryR2r, bind_of_ok (source s), ternaryCombine, if_pos rfl, read s 0 (by omega),
      pure_bind, both]
    exact Store.assign_congr (adjoins_congr s _ (fileByte sr ss 0))
  · refine ⟨?_, Store.pairwise_agree (fun i _ => ?_) accumBytes_apart ?_⟩
    · funext s
      have rounds := (ternaryRounds_assigns (fun i => s.gprFile sr (ss + i)) h8).eq
      rw [ternaryR2r, bind_of_ok (source s), ternaryCombine, if_neg one,
        loop_congr fun i hi => by rw [read s i hi, pure_bind], rounds]
      have same : List.Forall₂ Eq (List.range n) (List.range n) := List.forall₂_refl _
      refine Store.assign_congr (List.rel_flatMap same ?_)
      rintro i _ rfl
      exact adjoins_congr s _ (fileByte sr ss i)
    · have rows : DFT_REG_RDX ≠ DFT_REG_RAX := by decide
      simp [accumBytes, adjoins, Store.Agree, rows]
    · exact fun i _ => adjoins_dsts

/-- The loop of `lea_prop`. -/
theorem leaBody_assigns {a : LeaRows} (hd : GprSpan a.dst 0 n) (hb : GprSpan a.base a.baseStart n)
    (hx : GprSpan a.idx a.idxStart n) (ins : ADDRINT) :
    gprStore.Assigns
      (CleanCall.assignments (.leaProp ins a.dst a.base a.baseStart a.idx a.idxStart n))
      (loop n a.body) := by
  refine forward_assigns (fun i hi => ?_) fun i hi c hc => ?_
  · have file : InFile a.dst i := by simpa using hd.inFile hi
    funext s
    simp only [LeaRows.body, gprGet_eq (hb.inFile hi), gprGet_eq (hx.inFile hi), Store.get_bind,
      gprSet_eq file, Store.assign_singleton]
    rfl
  · rcases hc with base | index
    · rw [Set.mem_singleton_iff.mp base]
      exact Nat.le_add_left i _
    · rw [Set.mem_singleton_iff.mp index]
      exact Nat.le_add_left i _

end Calls

namespace CleanCall.RegToReg

variable {c : CleanCall} (h : c.RegToReg)
include h

theorem inBounds : c.InBounds := by
  cases c with
  | r2rXfer | binaryR2r | xchgR2r | xaddR2r | shldR2r => exact ⟨h.1.gprSpan, h.2.gprSpan⟩
  | cmpxchgReg => exact ⟨h.1.gprSpan, h.2.1.gprSpan, h.2.2.gprSpan⟩
  | movzxR2r dr sr ss srcn dstn | movsxR2r dr sr ss srcn dstn =>
    obtain ⟨⟨ds, hd⟩, hs⟩ := h
    have := hd.le_eight
    have := hs.le_eight
    exact ⟨GprSpan.of_le hd.gprSpan.row (by omega), hs.gprSpan⟩
  | shiftR => exact RegOperand.gprSpan h
  | ternaryR2r => exact ⟨RegOperand.gprSpan h, RegOperand.le_eight h⟩
  | leaProp =>
    obtain ⟨⟨ds, hd⟩, ⟨rb, hb⟩, ⟨rx, hx⟩⟩ := h
    obtain ⟨rfl, rfl⟩ := Prod.mk.inj hb
    obtain ⟨rfl, rfl⟩ := Prod.mk.inj hx
    have h8 := hd.le_eight
    exact ⟨hd.gprSpan_zero, addrRegSpan_gprSpan h8, addrRegSpan_gprSpan h8, h8⟩
  | _ => cases h

/-- Each of the eleven calls is its simultaneous assignment. -/
theorem assigns : ∃ f, gprStore.Assigns c.assignments f ∧ ∀ app limitOffset s t,
    f s = .ok (⟨⟩, t) → ∃ r, c.run app limitOffset s = .ok (r, t) := by
  have silent : ∀ (f : Engine PUnit) (s t : Shadow), f s = .ok (⟨⟩, t) →
      ∃ r, CleanCall.silent f s = .ok (r, t) := fun f s t run => ⟨none, bind_of_ok run⟩
  have bounds := h.inBounds
  cases c with
  | r2rXfer => exact ⟨_, r2rXfer_assigns h.1 h.2, fun _ _ => silent _⟩
  | binaryR2r => exact ⟨_, binaryR2r_assigns h.1 h.2, fun _ _ => silent _⟩
  | xchgR2r => exact ⟨_, xchgR2r_assigns h.1 h.2, fun _ _ => silent _⟩
  | xaddR2r => exact ⟨_, xaddR2r_assigns h.1 h.2, fun _ _ => silent _⟩
  | shldR2r => exact ⟨_, shldR2r_assigns h.1 h.2, fun _ _ => silent _⟩
  | cmpxchgReg => exact ⟨_, cmpxchgReg_assigns h.1 h.2.1 h.2.2, fun _ _ => silent _⟩
  | movzxR2r => exact ⟨_, movzxR2r_assigns h.1.choose_spec h.2, fun _ _ => silent _⟩
  | movsxR2r => exact ⟨_, movsxR2r_assigns h.1.choose_spec h.2, fun _ _ => silent _⟩
  | shiftR => exact ⟨_, shiftR_assigns h, fun _ _ => silent _⟩
  | ternaryR2r => exact ⟨_, ternaryR2r_assigns h, fun _ _ => silent _⟩
  | leaProp ins dr br bs xr xs n =>
    obtain ⟨hd, hb, hx, h8⟩ := bounds
    refine ⟨_, leaBody_assigns (a := ⟨dr, br, bs, xr, xs⟩) hd hb hx ins, fun _ _ s t run => ?_⟩
    obtain ⟨r, called⟩ := LeaRows.leaProp_of_loop ins hx h8 run
    exact ⟨_, map_of_ok called⟩
  | _ => cases h

/-- Every byte of the footprint is assigned. -/
theorem covers : ∀ b ∈ c.writes, ∃ a ∈ c.assignments, ∃ d ∈ a.dsts, b = .reg d.1 d.2 := by
  have each : ∀ {n i : ℕ} {g : ℕ → List (Assignment FileByte Tag)} {a}, i < n → a ∈ g i →
      a ∈ eachByte n g := fun hi ha => mem_eachByte.mpr ⟨_, hi, ha⟩
  have span : ∀ {row start n i : ℕ}, i < n →
      fileByte row start i ∈ (List.range n).map (fileByte row start) := fun hi =>
    List.mem_map_of_mem (List.mem_range.mpr hi)
  cases c with
  | r2rXfer | binaryR2r =>
    rintro b ⟨i, hi, rfl⟩
    exact ⟨_, each hi (.head _), _, .head _, rfl⟩
  | leaProp =>
    rintro b ⟨i, hi, rfl⟩
    exact ⟨_, each hi (.head _), _, .head _, by rw [Nat.zero_add]⟩
  | xchgR2r =>
    rintro b (⟨i, hi, rfl⟩ | ⟨i, hi, rfl⟩)
    · exact ⟨_, each hi (.head _), _, .head _, rfl⟩
    · exact ⟨_, each hi (.tail _ (.head _)), _, .head _, rfl⟩
  | xaddR2r | cmpxchgReg =>
    rintro b (⟨i, hi, rfl⟩ | ⟨i, hi, rfl⟩)
    · exact ⟨_, each hi (.head _), _, .head _, rfl⟩
    · exact ⟨_, each hi (.head _), _, .tail _ (.head _), rfl⟩
  | shiftR | shldR2r =>
    rintro b ⟨i, hi, rfl⟩
    rw [assignments, if_neg (by omega)]
    exact ⟨_, .head _, _, span hi, rfl⟩
  | movzxR2r => exact extension_covers _
  | movsxR2r =>
    rw [assignments, if_neg h.2.ne_zero]
    exact extension_covers _
  | ternaryR2r sr ss n =>
    rw [assignments, writes, ternarySpan]
    split_ifs with one
    · rintro b ⟨i, hi, rfl⟩
      have two : i = 0 ∨ i = 1 := by omega
      rcases two with rfl | rfl
      · exact ⟨_, .head _, _, .head _, rfl⟩
      · exact ⟨_, .tail _ (.head _), _, .head _, rfl⟩
    · rintro b (⟨i, hi, rfl⟩ | ⟨i, hi, rfl⟩)
      · exact ⟨_, each hi (.head _), _, .head _, by rw [Nat.zero_add]⟩
      · exact ⟨_, each hi (.tail _ (.head _)), _, .head _, by rw [Nat.zero_add]⟩
  | _ => cases h

end CleanCall.RegToReg

/-- The only constant is the empty tag. -/
theorem CleanCall.consts_assignments (c : CleanCall) :
    ∀ a ∈ c.assignments, ∀ v ∈ a.value.consts, v = clearedVal := by
  cases c with
  | shiftR | shldR2r =>
    rw [assignments]
    split_ifs <;> simp [spanUnion, Formula.consts, Formula.consts_through]
  | movzxR2r =>
    intro a ha v hv
    rcases List.mem_append.mp ha with ha | ha
    · obtain ⟨i, -, rfl⟩ := mem_copies.mp ha
      cases hv
    · obtain rfl := List.mem_singleton.mp ha
      exact hv
  | movsxR2r =>
    rw [assignments]
    split_ifs
    · simp
    · intro a ha v hv
      rcases List.mem_append.mp ha with ha | ha
      · obtain ⟨i, -, rfl⟩ := mem_copies.mp ha
        cases hv
      · obtain rfl := List.mem_singleton.mp ha
        cases hv
  | ternaryR2r =>
    rw [assignments]
    split_ifs
    · simp [adjoins, Formula.consts]
    · refine forall_eachByte.mpr fun i _ a ha => ?_
      obtain ⟨b, -, rfl⟩ := mem_adjoins.mp ha
      simp [Formula.consts]
  | _ => simp [assignments, forall_eachByte, Formula.consts]

/-! ## The state after a call -/

/-- The labels of a formula on the cells of `s`. -/
def Shadow.formulaLabels (s : Shadow) (e : Formula FileByte Tag) : Finset ℕ :=
  e.denote (· ∪ ·) s.sets.setOf fun b => s.labelsOf (.reg b.1 b.2)

/-- `t` is `s` with the assignments of the call carried out at once: the formulas are evaluated
in order on the tags of `s`, while the set table grows, and give the tags of the destinations;
these are all bytes of the footprint, and no cell outside of it has changed. -/
structure CleanCall.AtOnce (c : CleanCall) (s t : Shadow) : Prop where
  tags : ∃ vs u, gprStore.valuesOn (gprStore.cells s) c.assignments s = .ok (vs, u) ∧
    t.sets = u.sets ∧
    List.Forall₂ (fun a v => ∀ d ∈ a.dsts, t.cell (.reg d.1 d.2) = v) c.assignments vs
  labels : t.InIds → ∀ a ∈ c.assignments, ∀ d ∈ a.dsts,
    t.labelsOf (.reg d.1 d.2) = s.formulaLabels a.value
  covers : ∀ b ∈ c.writes, ∃ a ∈ c.assignments, ∃ d ∈ a.dsts, b = .reg d.1 d.2
  frame : ∀ b ∉ c.writes, t.cell b = s.cell b

/-- Combining is the union of labels, in every state that shows the cells. -/
theorem gprStore_opDoes (m : Cell → Finset ℕ) :
    gprStore.OpDoes byLabels.view m (· ∪ ·) :=
  fun _ _ _ _ _ hl hr => Meaning.combine_does hl hr

/-- In a sound state the formulas have values, and these denote the labels of the formulas. -/
theorem Shadow.Sound.valuesOn {s : Shadow} (sound : s.Sound) (c : CleanCall) :
    ∃ vs u, gprStore.valuesOn (gprStore.cells s) c.assignments s = .ok (vs, u) ∧
      ∀ a v, (a, v) ∈ c.assignments.zip vs →
        byLabels.Denotes u.sets v (s.formulaLabels a.value) := by
  have places : ∀ a ∈ c.assignments, ∀ b ∈ a.value.reads,
      (gprStore.cells s b, s.labelsOf (.reg b.1 b.2)) ∈
        {p : Tag × Finset ℕ | byLabels.Denotes s.sets p.1 p.2} := fun a _ b _ =>
    ⟨sound.known (.reg b.1 b.2), fun _ => rfl⟩
  have consts : ∀ a ∈ c.assignments, ∀ v ∈ a.value.consts,
      (v, s.sets.setOf v) ∈ {p : Tag × Finset ℕ | byLabels.Denotes s.sets p.1 p.2} := by
    intro a ha v hv
    rw [c.consts_assignments a ha v hv]
    exact ⟨sound.live.knows_clearedVal, fun _ => rfl⟩
  obtain ⟨vs, u, run, -, -, denotes⟩ :=
    Store.valuesOn_does (gprStore_opDoes s.labelsOf) places consts s sound.shows_labelsOf
      fun p hp => hp
  exact ⟨vs, u, run, fun a v mem => denotes (v, _) ⟨a, mem, rfl⟩⟩

/-- Every register-to-register call on operands of `reg_shadow_span`, whatever parts of which
registers they are, is a simultaneous assignment on the tags before the call. -/
theorem regToReg_atOnce {c : CleanCall} (h : c.RegToReg) (app : AppView) (limitOffset : INT32)
    {s : Shadow} (sound : s.Sound) :
    ∃ r t, c.run app limitOffset s = .ok (r, t) ∧ c.AtOnce s t := by
  obtain ⟨f, assigns, called⟩ := h.assigns
  obtain ⟨vs, u, values, denotes⟩ := sound.valuesOn c
  obtain ⟨m, run, tags, -⟩ := assigns.run values
  obtain ⟨r, run'⟩ := called app limitOffset s _ run
  have flow : Flow c.writes Set.univ ∅ _ (fun _ => ∅) (c.run app limitOffset) :=
    CleanCall.flow h.inBounds
  obtain ⟨-, -, -, le⟩ := flow.of_ok sound sound.within_univ run'
  refine ⟨r, _, run', ⟨⟨vs, u, values, rfl, tags⟩, fun room a ha d hd => ?_, h.covers, le.frame⟩⟩
  obtain ⟨length, each⟩ := List.forall₂_iff_zip.mp tags
  obtain ⟨⟨a, v⟩, mem, rfl⟩ : ∃ p ∈ c.assignments.zip vs, p.1 = a := by
    rwa [← List.mem_map, List.map_fst_zip length.le]
  change u.sets.setOf (m d) = _
  rw [each mem d hd]
  exact (denotes a v mem).2 room

theorem swapped_operands : (CleanCall.xchgR2r DFT_REG_RCX 0 DFT_REG_RCX 1 1).RegToReg :=
  ⟨⟨.gpr .rcx .b1, _, regShadowSpan_gpr _ _, rfl, rfl, by decide, by decide⟩,
    ⟨.high .ch, _, regShadowSpan_high _, rfl, rfl, by decide, by decide⟩⟩

/-- `xchg cl, ch` with a tainted CL: CH has its labels, and CL has none. -/
theorem regToReg_atOnce_swap : ∃ r t,
    (CleanCall.xchgR2r DFT_REG_RCX 0 DFT_REG_RCX 1 1).run idleApp 4 countTainted = .ok (r, t) ∧
      t.labelsOf (.reg DFT_REG_RCX 1) = countTainted.labelsOf (.reg DFT_REG_RCX 0) ∧
      t.labelsOf (.reg DFT_REG_RCX 0) = ∅ := by
  obtain ⟨r, t, run, once⟩ := regToReg_atOnce swapped_operands idleApp 4 countTainted_sound
  have room : t.InIds := by
    cases run
    exact (by decide : 2 ≤ idSpace)
  have low := once.labels room _ (.head _) _ (.head _)
  have high := once.labels room _ (.tail _ (.head _)) _ (.head _)
  have untainted : countTainted.labelsOf (.reg DFT_REG_RCX 1) = ∅ :=
    (countTainted_sound.labelsOf_eq_empty _).mpr rfl
  exact ⟨r, t, run, high, low.trans untainted⟩

end LibdftDr
