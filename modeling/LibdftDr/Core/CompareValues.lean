import LibdftDr.Core.Places
import LibdftDr.Core.Transfer
import Mathlib.Data.Nat.Digits.Defs

/-!
# The values of a CMP record

The last two fields of a record are the values of the two operands at the width of the
comparison. Each of the six handlers has a `switch` of its own for that; the one for an immediate
and memory prints the 32 bits it was handed, whatever the width. `cmp_values_iff` says when that
is the value all the same.
-/
namespace LibdftDr
open Library Library.Action

/-! ## Numbers as text -/

/-- A number as `hexstr` writes it. -/
def hexText (n : ℕ) : Text := '0' :: 'x' :: Nat.toDigits 16 n

theorem hexstr_eq (v : UINT64) : hexstr v = hexText v.toNat := rfl

theorem toDigits_injective : Function.Injective (Nat.toDigits 16) :=
  Function.LeftInverse.injective readHex_toDigits

theorem hexText_inj {m n : ℕ} : hexText m = hexText n ↔ m = n := by
  simp [hexText, toDigits_injective.eq_iff]

/-- A value at the width of an operand. -/
def shownValue (w : RegWidth) (n : ℕ) : Text := hexText (n % 2 ^ (8 * w.bytes))

theorem valueField_eq (w : RegWidth) (v : UINT64) :
    valueField w.bytes v = shownValue w v.toNat := by
  have := v.isLt
  cases w <;> simp [valueField, RegWidth.bytes, shownValue, hexstr_eq] <;> congr 1 <;> omega

theorem valueField32_eq {w : RegWidth} (small : w ≠ .b8) (v : UINT64) :
    valueField32 w.bytes v = shownValue w v.toNat := by
  rw [← valueField_eq]
  cases w with
  | b8 => exact absurd rfl small
  | _ => rfl

/-! ## Values in memory -/

/-- The `n` bytes at `addr` can be read, and are `v` in little-endian order. -/
def MemHolds (mem : AppMem) (addr : ADDRINT) (n v : ℕ) : Prop :=
  ∃ bytes : ℕ → UINT8, (∀ i < n, mem (byteAt addr i) = some (bytes i)) ∧
    v = Nat.ofDigits 256 ((List.range n).map fun i => (bytes i).toNat)

section Memory

variable {mem : AppMem} {addr : ADDRINT} {n v : ℕ}

theorem mapM_of_some {α β : Type} {f : α → Option β} {g : α → β} {l : List α}
    (h : ∀ a ∈ l, f a = some (g a)) : l.mapM f = some (l.map g) := by
  induction l with
  | nil => rfl
  | cons a l ih =>
    have rest := ih fun b hb => h b (List.mem_cons_of_mem a hb)
    simp [List.mapM_cons, h a List.mem_cons_self, rest]

/-- Eight bytes or fewer, put together by shifts. -/
theorem foldr_toNat {bytes : List UINT8} (h : bytes.length ≤ 8) :
    (bytes.foldr (fun b (v : UINT64) => (v <<< 8) ||| b.setWidth 64) 0).toNat =
      Nat.ofDigits 256 (bytes.map BitVec.toNat) := by
  induction bytes with
  | nil => rfl
  | cons b bytes ih =>
    simp only [List.length_cons] at h
    have before := ih (by omega)
    have bound : Nat.ofDigits 256 (bytes.map BitVec.toNat) < 256 ^ 7 := by
      refine (Nat.ofDigits_lt_base_pow_length (by decide) fun x hx => ?_).trans_le
        (Nat.pow_le_pow_right (by decide) (by simp; omega))
      obtain ⟨b, -, rfl⟩ := List.mem_map.mp hx
      exact b.isLt
    have byte : b.toNat < 2 ^ 8 := b.isLt
    rw [← before] at bound
    simp only [List.foldr_cons, List.map_cons, Nat.ofDigits_cons, BitVec.toNat_or,
      BitVec.toNat_shiftLeft, BitVec.toNat_setWidth, ← before]
    rw [Nat.mod_eq_of_lt (by rw [Nat.shiftLeft_eq]; omega), Nat.mod_eq_of_lt (by omega),
      ← Nat.shiftLeft_add_eq_or_of_lt byte, Nat.shiftLeft_eq]
    omega

theorem readMemVal_toNat (h : MemHolds mem addr n v) (hn : n ≤ 8) :
    (readMemVal mem addr n).toNat = v := by
  obtain ⟨bytes, readable, rfl⟩ := h
  have read : ((List.range n).mapM fun i => mem (byteAt addr i)) =
      some ((List.range n).map bytes) :=
    mapM_of_some fun i hi => readable i (List.mem_range.mp hi)
  have length : ((List.range n).map bytes).length ≤ 8 := by simpa using hn
  rw [readMemVal, read]
  simp only [foldr_toNat length, List.map_map]
  rfl

theorem memField32_eq {w : RegWidth} (small : w ≠ .b8) (h : MemHolds mem addr w.bytes v) :
    memField32 mem w.bytes addr = shownValue w v := by
  rw [← readMemVal_toNat h w.bytes_le, ← valueField_eq]
  cases w with
  | b8 => exact absurd rfl small
  | _ => rfl

end Memory

/-! ## Records -/

/-- The record shows these two values, in the fields 19 and 20. -/
structure CmpRecord.Shows (o : CmpRecord) (d v : Text) : Prop where
  dval : o.fields[19]? = some d
  sval : o.fields[20]? = some v

section Handlers

variable {mem : AppMem} {ins addr addr' : ADDRINT} {dRow dStart sRow sStart size : ℕ}
  {x y : UINT64} {imm : UINT32} {limitOffset : INT32} {gate : Tag → SetTable → Bool}
  {operands d v : Text}

theorem tagFields_yields (tags : List Tag) (tb : SetTable) :
    Yields (fun l => l.length = 8) (tagFields tags tb) := by
  unfold tagFields
  split_ifs with le
  · refine Yields.pure ?_
    simp only [List.length_append, List.length_map, List.length_replicate]
    omega
  · exact Yields.fail _

theorem compare_yields (dest src : List Tag) :
    Yields (fun r => ∀ o ∈ r, o.Shows d v) (compare ins size operands gate dest src d v) := by
  refine (Yields.any _).bind fun tb _ => (tagFields_yields dest tb).bind fun ds hd =>
    (tagFields_yields src tb).bind fun ss hs => Yields.ite (Yields.pure ?_) (Yields.pure (by simp))
  rintro o ⟨⟩
  constructor <;> simp [CmpRecord.fields, hd, hs]

theorem cmpR2r_yields : Yields (fun r => ∀ o ∈ r, o.Shows (valueField size x) (valueField size y))
    (cmpR2r ins dRow dStart x sRow sStart y size) :=
  (Yields.any _).bind fun _ _ => (Yields.any _).bind fun _ _ => compare_yields _ _

theorem cmpM2r_yields : Yields
    (fun r => ∀ o ∈ r, o.Shows (valueField size x) (valueField size (readMemVal mem addr size)))
    (cmpM2r mem ins dRow dStart x addr size) :=
  (Yields.any _).bind fun _ _ => Yields.ite
    ((Yields.any _).bind fun _ _ => compare_yields _ _) (Yields.pure (by simp))

theorem cmpI2r_yields : Yields
    (fun r => ∀ o ∈ r, o.Shows (valueField32 size x) (valueField32 size (imm.setWidth 64)))
    (cmpI2r ins dRow dStart x imm size) :=
  (Yields.any _).bind fun _ _ => compare_yields _ _

theorem cmpR2m_yields : Yields
    (fun r => ∀ o ∈ r, o.Shows (valueField size (readMemVal mem addr size)) (valueField size y))
    (cmpR2m mem ins addr sRow sStart y size) :=
  Yields.ite ((Yields.any _).bind fun _ _ => (Yields.any _).bind fun _ _ => compare_yields _ _)
    (Yields.pure (by simp))

theorem cmpI2m_yields : Yields
    (fun r => ∀ o ∈ r, o.Shows (memField32 mem size addr) (hexstr (imm.setWidth 64)))
    (cmpI2m mem ins addr imm size) :=
  Yields.ite ((Yields.any _).bind fun _ _ => compare_yields _ _) (Yields.pure (by simp))

theorem cmpM2m_yields : Yields
    (fun r => ∀ o ∈ r, o.Shows (memField32 mem size addr) (memField32 mem size addr'))
    (cmpM2m mem limitOffset ins addr addr' size) :=
  Yields.ite ((Yields.any _).bind fun _ _ => (Yields.any _).bind fun _ _ => compare_yields _ _)
    (Yields.pure (by simp))

end Handlers

/-- What holds of the record of every call holds of every record of a run. -/
theorem runCalls_yields {Q : Record → Prop} {app : AppView} {limitOffset : INT32}
    {cs : List CleanCall} (h : ∀ c ∈ cs, Yields (fun r => ∀ x ∈ r, Q x) (c.run app limitOffset)) :
    Yields (fun recs => ∀ x ∈ recs, Q x) (runCalls app limitOffset cs) := by
  induction cs with
  | nil => exact Yields.pure (by simp)
  | cons c cs ih =>
    refine (h c List.mem_cons_self).bind fun r hr =>
      (ih fun c hc => h c (.tail _ hc)).bind fun rs hrs => Yields.pure fun x hx => ?_
    obtain hx | hx := List.mem_append.mp hx
    · exact hr x (Option.mem_toList.mp hx)
    · exact hrs x hx

/-! ## The instructions -/

/-- An operand of a comparison; a register by its 64-bit parent. -/
inductive CmpOperand where
  | reg (g : Gpr)
  | mem (m : MemRef)
  | imm (v : UINT64)

namespace CmpOperand

def opnd (w : RegWidth) : CmpOperand → Opnd
  | reg g => .reg (.gpr g w)
  | mem m => .mem m
  | imm v => .immed v

/-- The operand has the value `n`, to be cut to `w`. Memory has that size and can be read. -/
def Holds (cpu : Cpu) (mem : AppMem) (w : RegWidth) : CmpOperand → ℕ → Prop
  | reg g, n => n = (cpu.gpr g).toNat
  | .mem m, n => m.size = w.bytes ∧ MemHolds mem (cpu.ea m) w.bytes n
  | imm v, n => n = v.toNat

/-- The pairs that CMP can compare. -/
def paired : CmpOperand → CmpOperand → Bool
  | reg _, _ => true
  | mem _, reg _ | mem _, imm _ => true
  | _, _ => false

end CmpOperand

/-- CMP with its two operands, or CMPS, whose destination is based on RDI and whose source is
based on RSI, listed in either order. -/
inductive Instr.Compares (instr : Instr) (w : RegWidth) : CmpOperand → CmpOperand → Prop
  | cmp {dst src : CmpOperand} (opcode : instr.opcode = .cmp)
      (srcs : instr.srcs = [dst.opnd w, src.opnd w]) (pair : dst.paired src = true) :
      Compares instr w dst src
  | cmps {d s : MemRef} {a : RegWidth} (opcode : instr.opcode = .cmps)
      (srcs : memRefs instr.srcs = [d, s] ∨ memRefs instr.srcs = [s, d])
      (wide : a = .b8 ∨ a = .b4) (rdi : d.base = .gpr .rdi a) (rsi : s.base = .gpr .rsi a) :
      Compares instr w (.mem d) (.mem s)

/-- The second value field: an immediate compared with memory is not cut to the width. -/
def shownSource (w : RegWidth) (n : ℕ) : CmpOperand → CmpOperand → Text
  | .mem _, .imm _ => hexText (n % 2 ^ 32)
  | _, _ => shownValue w n

section Instructions

variable {cpu : Cpu} {instr : Instr} {w : RegWidth} {dst src : CmpOperand} {nd ns : ℕ}
  {app : AppView} {limitOffset : INT32}

/-- A call whose record, if there is one, shows `d` and `v`. -/
def CleanCall.ShowsValues (c : CleanCall) (app : AppView) (limitOffset : INT32) (d v : Text) :
    Prop :=
  Yields (fun r => ∀ x ∈ r, ∀ o, x = Record.cmp o → o.Shows d v) (c.run app limitOffset)

theorem CleanCall.ShowsValues.of_handler {c : CleanCall} {f : Engine (Option CmpRecord)}
    {d v : Text} (run : c.run app limitOffset = Option.map .cmp <$> f)
    (h : Yields (fun r => ∀ o ∈ r, o.Shows d v) f) : c.ShowsValues app limitOffset d v := by
  rw [ShowsValues, run, map_eq_pure_bind]
  refine h.bind fun r hr => Yields.pure ?_
  rintro x hx o rfl
  obtain ⟨o', ho, e⟩ := Option.map_eq_some_iff.mp hx
  cases e
  exact hr _ ho

theorem mem_withMemAddr {m : MemRef} {call : ADDRINT → CleanCall} {c : CleanCall}
    (h : c ∈ withMemAddr cpu m call) : c = call (cpu.ea m) := by
  unfold withMemAddr at h
  split_ifs at h
  · exact List.mem_singleton.mp h
  · cases h

theorem mem_withMemAddr2 {m m' : MemRef} {call : ADDRINT → ADDRINT → CleanCall} {c : CleanCall}
    (h : c ∈ withMemAddr2 cpu m m' call) : c = call (cpu.ea m) (cpu.ea m') := by
  unfold withMemAddr2 at h
  split_ifs at h
  · exact List.mem_singleton.mp h
  · cases h

/-- The 32 bits of an immediate, cut to a width of at most 32 bits. -/
theorem shownValue_imm (small : w ≠ .b8) (v : UINT64) :
    shownValue w ((v.setWidth 32).setWidth 64 : UINT64).toNat = shownValue w v.toNat := by
  have := v.isLt
  cases w with
  | b8 => exact absurd rfl small
  | _ =>
    simp only [shownValue, RegWidth.bytes, BitVec.toNat_setWidth, hexText_inj]
    omega

/-- CMPS has its operands told apart by their base. -/
theorem insertCmps_of_bases {d s : MemRef} {a : RegWidth} (wide : a = .b8 ∨ a = .b4)
    (srcs : memRefs instr.srcs = [d, s] ∨ memRefs instr.srcs = [s, d])
    (rdi : d.base = .gpr .rdi a) (rsi : s.base = .gpr .rsi a) :
    insertCmps cpu instr = if d.size = 0 then [] else
      withMemAddr2 cpu d s fun d' s' => .cmpM2m instr.pc d' s' d.size := by
  obtain rfl | rfl := wide <;> obtain h | h := srcs <;> simp [insertCmps, h, rdi, rsi]

section Forms

variable {mem : AppMem} {m : MemRef} {v : UINT64} {g : Gpr} {n : ℕ}

theorem shownValue_reg (h : (CmpOperand.reg g).Holds cpu mem w n) :
    shownValue w n = valueField w.bytes (cpu.gpr g) := by
  obtain rfl : n = (cpu.gpr g).toNat := h
  exact (valueField_eq w _).symm

theorem shownValue_mem (h : (CmpOperand.mem m).Holds cpu mem w n) :
    shownValue w n = valueField w.bytes (readMemVal mem (cpu.ea m) w.bytes) := by
  rw [valueField_eq, readMemVal_toNat h.2 w.bytes_le]

/-- CMP with a register as destination. -/
theorem cmpReg_shows (hg : (CmpOperand.reg g).Holds cpu app.mem w nd) (small : w ≠ .b8)
    (hs : src.Holds cpu app.mem w ns) (opcode : instr.opcode = .cmp)
    (srcs : instr.srcs = [.reg (.gpr g w), src.opnd w]) :
    ∀ c ∈ insInspectDr cpu instr,
      c.ShowsValues app limitOffset (shownValue w nd) (shownValue w ns) := by
  have routed : insInspectDr cpu instr = insertCmp cpu instr := by simp [insInspectDr, opcode]
  intro c hc
  rw [routed, insertCmp, srcs] at hc
  cases src with
  | reg g' =>
    simp only [CmpOperand.opnd, regShadowSpan_gpr, List.mem_singleton] at hc
    obtain rfl := hc
    rw [shownValue_reg hg, shownValue_reg hs]
    exact .of_handler rfl cmpR2r_yields
  | mem m =>
    simp only [CmpOperand.opnd, regShadowSpan_gpr] at hc
    obtain rfl := mem_withMemAddr hc
    rw [shownValue_reg hg, shownValue_mem hs]
    exact .of_handler rfl cmpM2r_yields
  | imm v =>
    obtain rfl : ns = v.toNat := hs
    simp only [CmpOperand.opnd, regShadowSpan_gpr, List.mem_singleton] at hc
    obtain rfl := hc
    obtain rfl : nd = (cpu.gpr g).toNat := hg
    rw [← valueField32_eq small, ← shownValue_imm small, ← valueField32_eq small]
    exact .of_handler rfl cmpI2r_yields

/-- CMP with memory as destination. -/
theorem cmpMem_shows (hm : (CmpOperand.mem m).Holds cpu app.mem w nd) (small : w ≠ .b8)
    (hs : src.Holds cpu app.mem w ns) (opcode : instr.opcode = .cmp)
    (srcs : instr.srcs = [.mem m, src.opnd w]) (pair : (CmpOperand.mem m).paired src = true) :
    ∀ c ∈ insInspectDr cpu instr,
      c.ShowsValues app limitOffset (shownValue w nd) (shownSource w ns (.mem m) src) := by
  have routed : insInspectDr cpu instr = insertCmp cpu instr := by simp [insInspectDr, opcode]
  have size : w.bytes ≠ 0 := w.bytes_pos.ne'
  intro c hc
  rw [routed, insertCmp, srcs] at hc
  cases src with
  | reg g' =>
    have source : shownSource w ns (.mem m) (.reg g') = shownValue w ns := rfl
    simp only [CmpOperand.opnd, regShadowSpan_gpr, if_neg size, hm.1] at hc
    obtain rfl := mem_withMemAddr hc
    rw [source, shownValue_mem hm, shownValue_reg hs]
    exact .of_handler rfl cmpR2m_yields
  | imm v =>
    obtain rfl : ns = v.toNat := hs
    have source : shownSource w v.toNat (.mem m) (.imm v) =
        hexstr ((v.setWidth 32).setWidth 64) := by
      rw [hexstr_eq, shownSource, hexText_inj]
      simp only [BitVec.toNat_setWidth]
      omega
    simp only [CmpOperand.opnd, if_neg size, hm.1] at hc
    obtain rfl := mem_withMemAddr hc
    rw [source, ← memField32_eq small hm.2]
    exact .of_handler rfl cmpI2m_yields
  | mem => cases pair

/-- What every call of a comparison shows. -/
theorem Instr.Compares.shows (h : instr.Compares w dst src) (small : w ≠ .b8)
    (hd : dst.Holds cpu app.mem w nd) (hs : src.Holds cpu app.mem w ns) :
    ∀ c ∈ insInspectDr cpu instr,
      c.ShowsValues app limitOffset (shownValue w nd) (shownSource w ns dst src) := by
  cases h with
  | cmp opcode srcs pair =>
    cases dst with
    | reg g => exact cmpReg_shows hd small hs opcode srcs
    | mem m => exact cmpMem_shows hd small hs opcode srcs pair
    | imm => cases pair
  | @cmps d s a opcode srcs wide rdi rsi =>
    have routed : insInspectDr cpu instr = insertCmps cpu instr := by simp [insInspectDr, opcode]
    have size : d.size ≠ 0 := hd.1 ▸ w.bytes_pos.ne'
    have source : shownSource w ns (.mem d) (.mem s) = shownValue w ns := rfl
    intro c hc
    rw [routed, insertCmps_of_bases wide srcs rdi rsi, if_neg size, hd.1] at hc
    obtain rfl := mem_withMemAddr2 hc
    rw [source, ← memField32_eq small hs.2, ← memField32_eq small hd.2]
    exact .of_handler rfl cmpM2m_yields

end Forms

/-- An immediate compared with memory fits the width, in the 32 bits that are handed on. -/
def ImmFits (w : RegWidth) (dst src : CmpOperand) : Prop :=
  ∀ m v, dst = .mem m → src = .imm v → v.toNat % 2 ^ 32 < 2 ^ (8 * w.bytes)

theorem shownSource_eq_iff (small : w ≠ .b8) (hs : src.Holds cpu app.mem w ns) :
    shownSource w ns dst src = shownValue w ns ↔ ImmFits w dst src := by
  have below : 2 ^ (8 * w.bytes) ∣ 2 ^ 32 := by
    cases w with
    | b8 => exact absurd rfl small
    | _ => decide
  cases dst with
  | mem m =>
    cases src with
    | imm v =>
      obtain rfl : ns = v.toNat := hs
      rw [shownSource, shownValue, hexText_inj, ← Nat.mod_mod_of_dvd v.toNat below]
      constructor
      · rintro fixed _ _ ⟨⟩ ⟨⟩
        rw [fixed]
        exact Nat.mod_lt _ (by positivity)
      · exact fun fits => (Nat.mod_eq_of_lt (fits m v rfl rfl)).symm
    | reg | mem =>
      refine iff_of_true rfl ?_
      rintro _ _ - ⟨⟩
  | reg | imm =>
    refine iff_of_true rfl ?_
    rintro _ _ ⟨⟩

theorem Instr.Compares.record_shows (h : instr.Compares w dst src) (small : w ≠ .b8)
    (hd : dst.Holds cpu app.mem w nd) (hs : src.Holds cpu app.mem w ns) {s t : Shadow}
    {recs : List Record} {o : CmpRecord}
    (run : runCalls app limitOffset (insInspectDr cpu instr) s = .ok (recs, t))
    (emitted : Record.cmp o ∈ recs) : o.Shows (shownValue w nd) (shownSource w ns dst src) :=
  runCalls_yields (h.shows small hd hs) s recs t run _ emitted o rfl

theorem Instr.Compares.values_iff (h : instr.Compares w dst src) (small : w ≠ .b8)
    (hd : dst.Holds cpu app.mem w nd) (hs : src.Holds cpu app.mem w ns) {s t : Shadow}
    {recs : List Record} {o : CmpRecord}
    (run : runCalls app limitOffset (insInspectDr cpu instr) s = .ok (recs, t))
    (emitted : Record.cmp o ∈ recs) :
    o.Shows (shownValue w nd) (shownValue w ns) ↔ ImmFits w dst src := by
  have shown := h.record_shows small hd hs run emitted
  rw [← shownSource_eq_iff small hs]
  constructor
  · exact fun value => Option.some.inj (shown.sval.symm.trans value.sval)
  · exact fun same => same ▸ shown

/-- The same comparison of a register and of memory with an immediate. -/
theorem Instr.Compares.agree_iff {cpu' : Cpu} {instr' : Instr} {app' : AppView} {g : Gpr}
    {m : MemRef} {v : UINT64} {nd' : ℕ} (h : instr.Compares w (.reg g) (.imm v))
    (h' : instr'.Compares w (.mem m) (.imm v)) (small : w ≠ .b8)
    (hd : (CmpOperand.reg g).Holds cpu app.mem w nd)
    (hd' : (CmpOperand.mem m).Holds cpu' app'.mem w nd')
    (same : nd % 2 ^ (8 * w.bytes) = nd' % 2 ^ (8 * w.bytes)) {s t s' t' : Shadow}
    {recs recs' : List Record} {o o' : CmpRecord}
    (run : runCalls app limitOffset (insInspectDr cpu instr) s = .ok (recs, t))
    (emitted : Record.cmp o ∈ recs)
    (run' : runCalls app' limitOffset (insInspectDr cpu' instr') s' = .ok (recs', t'))
    (emitted' : Record.cmp o' ∈ recs') :
    (o.fields[19]? = o'.fields[19]? ∧ o.fields[20]? = o'.fields[20]?) ↔
      ImmFits w (.mem m) (.imm v) := by
  have imm : ∀ c (a : AppView), (CmpOperand.imm v).Holds c a.mem w v.toNat := fun _ _ => rfl
  have shown := h.record_shows small hd (imm cpu app) run emitted
  have shown' := h'.record_shows small hd' (imm cpu' app') run' emitted'
  have dest : shownValue w nd = shownValue w nd' := congrArg hexText same
  rw [← shownSource_eq_iff small (imm cpu' app'), shown.dval, shown'.dval, shown.sval, shown'.sval,
    dest, Option.some.injEq, Option.some.injEq]
  exact ⟨fun both => both.2.symm, fun source => ⟨rfl, source.symm⟩⟩

end Instructions

/-- Below 64 bits a record shows the values of its operands, cut to the width, if and only if it
does not compare memory with an immediate that is longer. So do a register and memory compared
with one immediate show the same. -/
theorem cmp_values_iff (limitOffset : INT32) :
    (∀ {app : AppView} {cpu : Cpu} {instr : Instr} {w : RegWidth} {dst src : CmpOperand}
      {nd ns : ℕ} {s t : Shadow} {recs : List Record} {o : CmpRecord},
      instr.Compares w dst src → w ≠ .b8 → dst.Holds cpu app.mem w nd →
      src.Holds cpu app.mem w ns →
      runCalls app limitOffset (insInspectDr cpu instr) s = .ok (recs, t) →
      Record.cmp o ∈ recs →
      (o.Shows (shownValue w nd) (shownValue w ns) ↔ ImmFits w dst src)) ∧
    ∀ {app app' : AppView} {cpu cpu' : Cpu} {instr instr' : Instr} {w : RegWidth} {g : Gpr}
      {m : MemRef} {v : UINT64} {nd nd' : ℕ} {s t s' t' : Shadow} {recs recs' : List Record}
      {o o' : CmpRecord},
      instr.Compares w (.reg g) (.imm v) → instr'.Compares w (.mem m) (.imm v) → w ≠ .b8 →
      (CmpOperand.reg g).Holds cpu app.mem w nd → (CmpOperand.mem m).Holds cpu' app'.mem w nd' →
      nd % 2 ^ (8 * w.bytes) = nd' % 2 ^ (8 * w.bytes) →
      runCalls app limitOffset (insInspectDr cpu instr) s = .ok (recs, t) →
      Record.cmp o ∈ recs →
      runCalls app' limitOffset (insInspectDr cpu' instr') s' = .ok (recs', t') →
      Record.cmp o' ∈ recs' →
      ((o.fields[19]? = o'.fields[19]? ∧ o.fields[20]? = o'.fields[20]?) ↔
        ImmFits w (.mem m) (.imm v)) :=
  ⟨fun h small hd hs run emitted => h.values_iff small hd hs run emitted,
    fun h h' small hd hd' same run emitted run' emitted' =>
      h.agree_iff h' small hd hd' same run emitted run' emitted'⟩

/-- Memory that holds zeros. -/
def zeroApp : AppView := ⟨fun _ => some 0, 0⟩

/-- One byte. -/
def byteRef : MemRef where
  size := 1
  baseDisp := true
  base := .gpr .rdi .b8
  index := .null
  scale := 0
  disp := 0
  size_le := by decide

/-- `cmp dst, v` at a width of one byte. -/
def cmpByteImm (dst : CmpOperand) (v : UINT64) : Instr where
  opcode := .cmp
  dsts := []
  srcs := [dst.opnd .b1, .immed v]
  predicate := .none
  pc := 0x401000

theorem cmpByteImm_compares (dst : CmpOperand) (v : UINT64) (h : dst.paired (.imm v) = true) :
    (cmpByteImm dst v).Compares .b1 dst (.imm v) := .cmp rfl rfl h

theorem byteRef_holds : (CmpOperand.mem byteRef).Holds idleCpu zeroApp.mem .b1 0 :=
  ⟨rfl, fun _ => 0, fun _ _ => rfl, rfl⟩

def Record.isCmp : Record → Bool
  | .cmp _ => true
  | .lea _ => false

theorem exists_cmp {app : AppView} {limitOffset : INT32} {cs : List CleanCall} {s : Shadow}
    (h : (runCalls app limitOffset cs s).toOption.any (fun r => r.1.any Record.isCmp) = true) :
    ∃ recs t o, runCalls app limitOffset cs s = .ok (recs, t) ∧ Record.cmp o ∈ recs := by
  cases run : runCalls app limitOffset cs s with
  | error e =>
    rw [run] at h
    cases h
  | ok r =>
    rw [run] at h
    obtain ⟨recs, t⟩ := r
    obtain ⟨x, hx, cmp⟩ := List.any_eq_true.mp h
    cases x with
    | cmp o => exact ⟨recs, t, o, rfl, hx⟩
    | lea => cases cmp

/-- `cmp byte [0], v` on a tainted byte emits a record. -/
theorem cmpByteImm_emits (v : UINT64) (h : v = 0x41 ∨ v = -1) : ∃ recs t o,
    runCalls zeroApp 4 (insInspectDr idleCpu (cmpByteImm (.mem byteRef) v)) (oneTainted 0) =
      .ok (recs, t) ∧ Record.cmp o ∈ recs := by
  obtain rfl | rfl := h
  · exact exists_cmp (by decide +kernel)
  · exact exists_cmp (by decide +kernel)

/-- -1 has more than 8 bits. -/
theorem not_immFits : ¬ ImmFits .b1 (.mem byteRef) (.imm (-1)) := by
  intro fits
  exact absurd (fits byteRef (-1) rfl rfl) (by decide)

theorem immFits_letter : ImmFits .b1 (.mem byteRef) (.imm 0x41) := by
  rintro _ _ ⟨⟩ ⟨⟩
  decide

/-- `cmp byte [0], 0x41` shows its values, and the same as `cmp cl, 0x41`; `cmp byte [0], -1`
does not. -/
theorem cmp_values_iff_byte :
    (∃ recs t o, runCalls zeroApp 4 (insInspectDr idleCpu (cmpByteImm (.mem byteRef) 0x41))
      (oneTainted 0) = .ok (recs, t) ∧ Record.cmp o ∈ recs ∧
      o.Shows (shownValue .b1 0) (shownValue .b1 0x41)) ∧
    (∃ recs t o, runCalls zeroApp 4 (insInspectDr idleCpu (cmpByteImm (.mem byteRef) (-1)))
      (oneTainted 0) = .ok (recs, t) ∧ Record.cmp o ∈ recs ∧
      ¬ o.Shows (shownValue .b1 0) (shownValue .b1 (-1 : UINT64).toNat)) ∧
    ∃ recs t o recs' t' o', runCalls zeroApp 4 (insInspectDr idleCpu (cmpByteImm (.reg .rcx) 0x41))
      countTainted = .ok (recs, t) ∧ Record.cmp o ∈ recs ∧
      runCalls zeroApp 4 (insInspectDr idleCpu (cmpByteImm (.mem byteRef) 0x41)) (oneTainted 0) =
        .ok (recs', t') ∧ Record.cmp o' ∈ recs' ∧
      o.fields[19]? = o'.fields[19]? ∧ o.fields[20]? = o'.fields[20]? := by
  obtain ⟨values, agree⟩ := cmp_values_iff 4
  obtain ⟨recs, t, o, run, emitted⟩ := cmpByteImm_emits 0x41 (.inl rfl)
  obtain ⟨recs₁, t₁, o₁, run₁, emitted₁⟩ := cmpByteImm_emits (-1) (.inr rfl)
  obtain ⟨recs₂, t₂, o₂, run₂, emitted₂⟩ : ∃ recs t o, runCalls zeroApp 4
      (insInspectDr idleCpu (cmpByteImm (.reg .rcx) 0x41)) countTainted = .ok (recs, t) ∧
      Record.cmp o ∈ recs := exists_cmp (by decide +kernel)
  refine ⟨⟨recs, t, o, run, emitted, ?_⟩, ⟨recs₁, t₁, o₁, run₁, emitted₁, ?_⟩,
    ⟨recs₂, t₂, o₂, recs, t, o, run₂, emitted₂, run, emitted, ?_⟩⟩
  · exact (values (cmpByteImm_compares _ _ rfl) (by decide) byteRef_holds rfl run emitted).mpr
      immFits_letter
  · rw [values (cmpByteImm_compares _ _ rfl) (by decide) byteRef_holds rfl run₁ emitted₁]
    exact not_immFits
  · exact (agree (cmpByteImm_compares _ _ rfl) (cmpByteImm_compares _ _ rfl) (by decide) rfl
      byteRef_holds rfl run₂ emitted₂ run emitted).mpr immFits_letter

/-- `cmp byte [0], -1` shows all 32 bits of the immediate. -/
theorem cmp_i2m_not_cut :
    ¬ ∀ (limitOffset : INT32) (app : AppView) (cpu : Cpu) (instr : Instr) (w : RegWidth)
      (dst src : CmpOperand) (nd ns : ℕ) (s t : Shadow) (recs : List Record) (o : CmpRecord),
      instr.Compares w dst src → w ≠ .b8 → dst.Holds cpu app.mem w nd →
      src.Holds cpu app.mem w ns → s.Sound →
      runCalls app limitOffset (insInspectDr cpu instr) s = .ok (recs, t) →
      Record.cmp o ∈ recs → o.Shows (shownValue w nd) (shownValue w ns) := by
  intro claim
  obtain ⟨recs, t, o, run, emitted⟩ := cmpByteImm_emits (-1) (.inr rfl)
  have h := cmpByteImm_compares (.mem byteRef) (-1) rfl
  have shown := claim _ _ _ _ _ _ _ _ _ _ _ _ _ h (by decide) byteRef_holds rfl
    (oneTainted_sound 0) run emitted
  exact not_immFits ((h.values_iff (by decide) byteRef_holds rfl run emitted).mp shown)

end LibdftDr
