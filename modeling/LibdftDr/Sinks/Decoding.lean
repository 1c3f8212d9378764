import LibdftDr.Sinks.Lines
import LibdftDr.Sinks.TagTexts

/-!
# Lines read back

Splitting a line at its blanks gives its fields, with the operand kind in two of them: no other
field has a blank. `decodeCmp` and `decodeLea` read an event from the fields. The width tells how
many of the eight fields of an operand are bytes, since a field that is not used looks like a byte
without labels.
-/
namespace LibdftDr
open Library Library.Action

/-! ## Fields of a line -/

theorem recordLine_eq_separated (fields : List Text) :
    recordLine fields = separated ' ' (fields ++ [['\n']]) := by
  induction fields with
  | nil => rfl
  | cons f fs ih =>
    have rest : recordLine (f :: fs) = f ++ ' ' :: recordLine fs := by simp [recordLine]
    rw [rest, ih, separated_eq_intercalate, separated_eq_intercalate]
    cases fs <;> simp [List.intercalate_cons_cons]

theorem splitOn_recordLine {fields : List Text} (free : ∀ f ∈ fields, ' ' ∉ f) :
    (recordLine fields).splitOn ' ' = fields ++ [['\n']] := by
  rw [recordLine_eq_separated, splitOn_separated ?_ (by simp)]
  intro f hf
  obtain old | new := List.mem_append.mp hf
  · exact free f old
  · rw [List.mem_singleton.mp new]
    decide

/-- A field with a blank in it looks like two. -/
theorem recordLine_blank (width first second : Text) (fields : List Text) :
    recordLine (width :: (first ++ ' ' :: second) :: fields) =
      recordLine (width :: first :: second :: fields) := by
  simp [recordLine]

theorem blank_notMem_hexstr (v : UINT64) : ' ' ∉ hexstr v := by
  have digits : ' ' ∉ Nat.toDigits 16 v.toNat := by
    intro h
    obtain ⟨d, hd, eq⟩ := exists_digit_of_mem_toDigits (by decide) h
    have all : ∀ d < 16, ' ' ≠ d.digitChar := by decide
    exact all d hd eq
  simp [hexstr, digits]

theorem blank_notMem_tagSprint (t : Tag) (tb : SetTable) : ' ' ∉ tagSprint t tb := by
  have printed : ∀ s : Ewah, ' ' ∉ s.print := by
    intro s
    have inner : ' ' ∉ separated ',' (s.members.map decimal) := by
      intro h
      obtain comma | ⟨f, hf, hc⟩ := mem_separated h
      · exact absurd comma (by decide)
      · obtain ⟨n, -, rfl⟩ := List.mem_map.mp hf
        exact not_mem_decimal (by decide) n hc
    simp [Ewah.print, inner]
  unfold tagSprint
  split
  · decide
  · split
    · decide
    · rw [ewahSprint_eq_print]
      exact printed _

theorem blank_notMem_tagTexts {s : Shadow} {cells : List Cell} :
    ∀ f ∈ tagTexts s cells, ' ' ∉ f := by
  intro f hf
  obtain ⟨b, -, rfl⟩ | hf := (List.mem_append.mp hf).imp_left List.mem_map.mp
  · exact blank_notMem_tagSprint _ _
  · rw [List.eq_of_mem_replicate hf]
    decide

theorem blank_notMem_valueField (size : ℕ) (v : UINT64) : ' ' ∉ valueField size v := by
  unfold valueField
  split <;> first | exact blank_notMem_hexstr _ | decide

theorem blank_notMem_valueField32 (size : ℕ) (v : UINT64) : ' ' ∉ valueField32 size v := by
  unfold valueField32
  split <;> first | exact blank_notMem_hexstr _ | decide

theorem blank_notMem_memField32 (mem : AppMem) (size : ℕ) (addr : ADDRINT) :
    ' ' ∉ memField32 mem size addr := by
  unfold memField32
  split <;> first | exact blank_notMem_hexstr _ | decide

/-- The first fields of an operand show its bytes' sets. -/
theorem readSet_tagTexts {s : Shadow} {cells : List Cell} {n : ℕ} (sound : s.Sound)
    (length : cells.length = n) (more : List Text) :
    ((tagTexts s cells ++ more).take n).map readSet = cells.map s.labelsOf := by
  subst length
  rw [tagTexts, List.append_assoc, List.take_left' (by simp), List.map_map]
  exact List.map_congr_left fun b _ => readSet_tagSprint sound.live (sound.known b)

/-! ## Events -/

inductive OperandSort where
  | reg | mem | imm
  deriving DecidableEq

def OperandSort.text : OperandSort → Text
  | .reg => "reg".toList
  | .mem => "mem".toList
  | .imm => "imm".toList

def OperandSort.read (t : Text) : Option OperandSort :=
  [.reg, .mem, .imm].find? fun sort => sort.text = t

@[simp] theorem OperandSort.read_text (sort : OperandSort) : read sort.text = some sort := by
  cases sort <;> decide

theorem OperandSort.blank_notMem_text (sort : OperandSort) : ' ' ∉ sort.text := by
  cases sort <;> decide

/-- An immediate has no bytes with tags. -/
def OperandSort.bytes (size : ℕ) : OperandSort → ℕ
  | .reg | .mem => size
  | .imm => 0

/-- What a line of cmp.out tells. -/
structure CmpEvent where
  /-- In bytes. -/
  width : ℕ
  dstSort : OperandSort
  srcSort : OperandSort
  pc : ADDRINT
  dest : List (Finset ℕ)
  src : List (Finset ℕ)
  dval : Text
  sval : Text

/-- What a line of lea.out tells. -/
structure LeaEvent where
  /-- In bytes. -/
  width : ℕ
  index : List (Finset ℕ)

/-- The width in bytes, from the field with the width in bits. -/
def readWidth (field : Text) : ℕ := Nat.ofDigitChars 10 field 0 / 8

theorem readWidth_decimal (n : ℕ) : readWidth (decimal (n * 8)) = n := by
  rw [readWidth, decimal, Nat.ofDigitChars_ten_toDigits]
  omega

def decodeCmp (line : Text) : Option CmpEvent :=
  match line.splitOn ' ' with
  | width :: first :: second :: ins :: rest => do
    let dstSort ← OperandSort.read first
    let srcSort ← OperandSort.read second
    let n := readWidth width
    some {
      width := n
      dstSort
      srcSort
      pc := BitVec.ofNat 64 (readHex (ins.drop 2))
      dest := (rest.take n).map readSet
      src := ((rest.drop 8).take (srcSort.bytes n)).map readSet
      dval := rest.getD 16 []
      sval := rest.getD 17 [] }
  | _ => none

def decodeLea (line : Text) : Option LeaEvent :=
  match line.splitOn ' ' with
  | width :: _ :: rest => some ⟨readWidth width, (rest.take (readWidth width)).map readSet⟩
  | _ => none

/-! ## Comparisons -/

/-- What a comparing handler compares, with the texts of its value fields. -/
structure Comparison where
  ins : ADDRINT
  size : ℕ
  dstSort : OperandSort
  srcSort : OperandSort
  dest : List Cell
  src : List Cell
  dval : Text
  sval : Text

namespace Comparison

def event (k : Comparison) (s : Shadow) : CmpEvent where
  width := k.size
  dstSort := k.dstSort
  srcSort := k.srcSort
  pc := k.ins
  dest := k.dest.map s.labelsOf
  src := k.src.map s.labelsOf
  dval := k.dval
  sval := k.sval

def operands (k : Comparison) : Text := k.dstSort.text ++ ' ' :: k.srcSort.text

def fields (k : Comparison) (s : Shadow) : List Text :=
  [decimal (k.size * 8), k.operands, hexstr k.ins] ++ tagTexts s k.dest ++ tagTexts s k.src ++
    [k.dval, k.sval]

/-- The operands have as many bytes as they should, and the value fields no blank. -/
structure Fits (k : Comparison) : Prop where
  size8 : k.size ≤ 8
  dest : k.dest.length = k.size
  src : k.src.length = k.srcSort.bytes k.size
  dval : ' ' ∉ k.dval
  sval : ' ' ∉ k.sval

variable {k : Comparison} {s : Shadow}

theorem Fits.dest8 (h : k.Fits) : k.dest.length ≤ 8 := h.dest.le.trans h.size8

theorem Fits.src8 (h : k.Fits) : k.src.length ≤ 8 := by
  have size8 := h.size8
  rw [h.src]
  cases k.srcSort <;> simp only [OperandSort.bytes] <;> omega

theorem Fits.fields_length (h : k.Fits) : (k.fields s).length = 21 := by
  simp [fields, tagTexts_length h.dest8, tagTexts_length h.src8]

/-- The line of a comparison decodes to its event. -/
theorem Fits.decode (h : k.Fits) (sound : s.Sound) :
    decodeCmp (recordLine (k.fields s)) = some (k.event s) := by
  have dest8 := tagTexts_length (s := s) h.dest8
  have src8 := tagTexts_length (s := s) h.src8
  have tokens : (recordLine (k.fields s)).splitOn ' ' =
      decimal (k.size * 8) :: k.dstSort.text :: k.srcSort.text :: hexstr k.ins ::
        (tagTexts s k.dest ++ (tagTexts s k.src ++ [k.dval, k.sval, ['\n']])) := by
    have two := recordLine_blank (decimal (k.size * 8)) k.dstSort.text k.srcSort.text
      (hexstr k.ins :: (tagTexts s k.dest ++ (tagTexts s k.src ++ [k.dval, k.sval])))
    have free : ∀ f ∈ decimal (k.size * 8) :: k.dstSort.text :: k.srcSort.text :: hexstr k.ins ::
        (tagTexts s k.dest ++ (tagTexts s k.src ++ [k.dval, k.sval])), ' ' ∉ f := by
      simp only [List.mem_cons, List.mem_append, List.not_mem_nil, or_false]
      rintro f (rfl | rfl | rfl | rfl | hf | hf | rfl | rfl)
      · exact not_mem_decimal (by decide) _
      · exact OperandSort.blank_notMem_text _
      · exact OperandSort.blank_notMem_text _
      · exact blank_notMem_hexstr _
      · exact blank_notMem_tagTexts f hf
      · exact blank_notMem_tagTexts f hf
      · exact h.dval
      · exact h.sval
    have split := splitOn_recordLine free
    rw [← two] at split
    simpa [fields, operands] using split
  have pc : BitVec.ofNat 64 (readHex ((hexstr k.ins).drop 2)) = k.ins := by
    simp [hexstr, readHex_toDigits]
  have dest := readSet_tagTexts sound h.dest (tagTexts s k.src ++ [k.dval, k.sval, ['\n']])
  have src := readSet_tagTexts sound h.src [k.dval, k.sval, ['\n']]
  simp only [decodeCmp, tokens, OperandSort.read_text, Option.bind_eq_bind, Option.bind_some,
    readWidth_decimal, pc, dest, List.drop_left' dest8, src]
  have values : ∀ i, (tagTexts s k.dest ++ (tagTexts s k.src ++ [k.dval, k.sval, ['\n']])).getD
      (16 + i) [] = [k.dval, k.sval, ['\n']].getD i [] := by
    intro i
    rw [← List.append_assoc, List.getD_append_right _ _ _ _ (by simp [dest8, src8])]
    simp [dest8, src8]
  rw [values 0, values 1]
  rfl

end Comparison

namespace CleanCall

/-- The comparison that a call makes, if it is a comparing one. -/
def comparison (app : AppView) : CleanCall → Option Comparison
  | .cmpR2r i dr ds dv sr ss sv n =>
    some ⟨i, n, .reg, .reg, regBytes dr ds n, regBytes sr ss n, valueField n dv, valueField n sv⟩
  | .cmpM2r i dr ds dv a n =>
    some ⟨i, n, .reg, .mem, regBytes dr ds n, memBytes a n, valueField n dv,
      valueField n (readMemVal app.mem a n)⟩
  | .cmpI2r i dr ds dv imm n =>
    some ⟨i, n, .reg, .imm, regBytes dr ds n, [], valueField32 n dv,
      valueField32 n (imm.setWidth 64)⟩
  | .cmpR2m i a sr ss sv n =>
    some ⟨i, n, .mem, .reg, memBytes a n, regBytes sr ss n, valueField n (readMemVal app.mem a n),
      valueField n sv⟩
  | .cmpI2m i a imm n =>
    some ⟨i, n, .mem, .imm, memBytes a n, [], memField32 app.mem n a, hexstr (imm.setWidth 64)⟩
  | .cmpM2m i da sa n =>
    some ⟨i, n, .mem, .mem, memBytes da n, memBytes sa n, memField32 app.mem n da,
      memField32 app.mem n sa⟩
  | _ => none

def cmpEvent (app : AppView) (c : CleanCall) (s : Shadow) : Option CmpEvent :=
  (c.comparison app).map (·.event s)

def leaEvent (c : CleanCall) (s : Shadow) : Option LeaEvent :=
  match c with
  | .leaProp _ _ _ _ ir is n => some ⟨n, (regBytes ir is n).map s.labelsOf⟩
  | _ => none

theorem comparison_fits {app : AppView} {c : CleanCall} {k : Comparison} (bounds : c.InBounds)
    (hk : c.comparison app = some k) : k.Fits := by
  have regs : ∀ row start n, (regBytes row start n).length = n := by simp [regBytes]
  have mems : ∀ addr n, (memBytes addr n).length = n := by simp [memBytes]
  cases c with
  | cmpR2r =>
    cases hk
    exact ⟨bounds.2.2, regs _ _ _, regs _ _ _, blank_notMem_valueField _ _,
      blank_notMem_valueField _ _⟩
  | cmpM2r =>
    cases hk
    exact ⟨bounds.2, regs _ _ _, mems _ _, blank_notMem_valueField _ _, blank_notMem_valueField _ _⟩
  | cmpI2r =>
    cases hk
    exact ⟨bounds.2, regs _ _ _, rfl, blank_notMem_valueField32 _ _, blank_notMem_valueField32 _ _⟩
  | cmpR2m =>
    cases hk
    exact ⟨bounds.2, mems _ _, regs _ _ _, blank_notMem_valueField _ _, blank_notMem_valueField _ _⟩
  | cmpI2m =>
    cases hk
    exact ⟨bounds, mems _ _, rfl, blank_notMem_memField32 _ _ _, blank_notMem_hexstr _⟩
  | cmpM2m =>
    cases hk
    exact ⟨bounds, mems _ _, mems _ _, blank_notMem_memField32 _ _ _, blank_notMem_memField32 _ _ _⟩
  | _ => cases hk

end CleanCall

/-! ## Records of a run -/

section Runs

variable {s t : Shadow} {size : ℕ} {addr ins : ADDRINT} {dest src : List Cell} {o : CmpRecord}
  {dRow dStart sRow sStart : ℕ}

/-- Tags are read from memory only where all of it is in range, and reading changes nothing. -/
theorem fillMemTags_ok {v : Vector Tag size} (sound : s.Sound)
    (run : fillMemTags addr size s = .ok (v, t)) :
    t = s ∧ v.toList = (memBytes addr size).map s.cell := by
  obtain ⟨inRange, -⟩ := (fillMemTags_flow (D := ∅) addr).of_ok sound sound.within_univ run
  obtain ⟨w, run', bytes⟩ := fillMemTags_run (s := s) inRange
  cases run.symm.trans run'
  exact ⟨rfl, bytes⟩

/-- A record that the handler emits has these fields. -/
def Emits (s : Shadow) (fields : List Text) (f : Engine (Option CmpRecord)) : Prop :=
  ∀ o t, f s = .ok (some o, t) → o.fields = fields

variable {fields : List Text}

theorem Emits.after {α : Type} {f : Engine α} {k : α → Engine (Option CmpRecord)} {a : α}
    (read : f s = .ok (a, s)) (h : Emits s fields (k a)) : Emits s fields (f >>= k) := by
  intro o t run
  rw [bind_of_ok read] at run
  exact h o t run

theorem Emits.afterMem {k : Vector Tag size → Engine (Option CmpRecord)} (sound : s.Sound)
    (h : ∀ v, v.toList = (memBytes addr size).map s.cell → Emits s fields (k v)) :
    Emits s fields (fillMemTags addr size >>= k) := by
  intro o t run
  obtain ⟨v, u, read, rest⟩ := bind_eq_ok.mp run
  obtain ⟨rfl, bytes⟩ := fillMemTags_ok sound read
  exact h v bytes o t rest

theorem Emits.tested {c : Prop} [Decidable c] {f : Engine (Option CmpRecord)}
    (h : Emits s fields f) : Emits s fields (if c then f else pure none) := by
  intro o t run
  split_ifs at run
  · exact h o t run
  · cases run

theorem Comparison.Fits.emits {k : Comparison} {gate : Tag → SetTable → Bool}
    {dtags stags : List Tag} (h : k.Fits) (hd : dtags = k.dest.map s.cell)
    (hs : stags = k.src.map s.cell) : Emits s (k.fields s)
      (compare k.ins k.size k.operands gate dtags stags k.dval k.sval) := by
  intro o t run
  subst hd hs
  have tables_run : tables s = .ok (s.sets, s) := rfl
  rw [compare, bind_of_ok tables_run, bind_of_ok (tagFields_run h.dest8),
    bind_of_ok (tagFields_run h.src8)] at run
  split_ifs at run
  · cases run
    rfl
  · cases run

/-- A clean call emits what its handler does. -/
theorem emitted_iff {α : Type} {f : Engine (Option α)} {g : α → Record} {r : Option Record} :
    (Option.map g <$> f) s = .ok (r, t) ↔ ∃ a, f s = .ok (a, t) ∧ r = a.map g := by
  rw [map_eq_pure_bind, bind_eq_ok]
  constructor
  · rintro ⟨a, u, run, last⟩
    cases last
    exact ⟨a, run, rfl⟩
  · rintro ⟨a, run, rfl⟩
    exact ⟨a, t, run, rfl⟩

theorem Emits.fields_eq {f : Engine (Option CmpRecord)} (h : Emits s fields f)
    (run : (Option.map Record.cmp <$> f) s = .ok (some (.cmp o), t)) : o.fields = fields := by
  obtain ⟨a, run', eq⟩ := emitted_iff.mp run
  obtain ⟨o', rfl, same⟩ := Option.map_eq_some_iff.mp eq.symm
  cases same
  exact h o t run'

end Runs

/-- The record of a comparing call shows what the call compares. -/
theorem cmpRecord_fields {app : AppView} {limitOffset : INT32} {c : CleanCall} {s t : Shadow}
    {o : CmpRecord} (bounds : c.InBounds) (sound : s.Sound)
    (run : c.run app limitOffset s = .ok (some (.cmp o), t)) :
    ∃ k, c.comparison app = some k ∧ k.Fits ∧ o.fields = k.fields s := by
  have silent {f : Engine PUnit} : CleanCall.silent f s ≠ .ok (some (.cmp o), t) := by
    intro run
    obtain ⟨_, _, -, last⟩ := bind_eq_ok.mp run
    cases last
  have fits : ∀ k, c.comparison app = some k → k.Fits := fun _ => CleanCall.comparison_fits bounds
  cases c with
  | cmpR2r i dr ds dv sr ss sv n =>
    have fits := fits _ rfl
    obtain ⟨d, readD, bytesD⟩ := fillRegTags_run (s := s) bounds.1
    obtain ⟨u, readS, bytesS⟩ := fillRegTags_run (s := s) bounds.2.1
    have fields := (Emits.after readD (.after readS (fits.emits bytesD bytesS))).fields_eq run
    exact ⟨_, rfl, fits, fields⟩
  | cmpM2r i dr ds dv a n =>
    have fits := fits _ rfl
    obtain ⟨d, readD, bytesD⟩ := fillRegTags_run (s := s) bounds.1
    exact ⟨_, rfl, fits, (Emits.after readD (.tested
      (.afterMem sound fun v bytesS => fits.emits bytesD bytesS))).fields_eq run⟩
  | cmpI2r i dr ds dv imm n =>
    have fits := fits _ rfl
    obtain ⟨d, readD, bytesD⟩ := fillRegTags_run (s := s) bounds.1
    exact ⟨_, rfl, fits, (Emits.after readD (fits.emits bytesD rfl)).fields_eq run⟩
  | cmpR2m i a sr ss sv n =>
    have fits := fits _ rfl
    obtain ⟨u, readS, bytesS⟩ := fillRegTags_run (s := s) bounds.1
    exact ⟨_, rfl, fits, (Emits.tested (.afterMem sound fun v bytesD =>
      .after readS (fits.emits bytesD bytesS))).fields_eq run⟩
  | cmpI2m i a imm n =>
    have fits := fits _ rfl
    exact ⟨_, rfl, fits, (Emits.tested (.afterMem sound fun v bytesD =>
      fits.emits bytesD rfl)).fields_eq run⟩
  | cmpM2m i da sa n =>
    have fits := fits _ rfl
    exact ⟨_, rfl, fits, (Emits.tested (.afterMem sound fun v bytesD =>
      .afterMem sound fun w bytesS => fits.emits bytesD bytesS)).fields_eq run⟩
  | leaProp =>
    obtain ⟨a, -, eq⟩ := emitted_iff.mp run
    cases a <;> cases eq
  | _ => exact absurd run silent

theorem leaRecord_fields {app : AppView} {limitOffset : INT32} {c : CleanCall} {s t : Shadow}
    {o : LeaRecord} (bounds : c.InBounds) (run : c.run app limitOffset s = .ok (some (.lea o), t)) :
    ∃ size cells, size ≤ 8 ∧ cells.length = size ∧
      c.leaEvent s = some ⟨size, cells.map s.labelsOf⟩ ∧
      o.fields = [decimal (size * 8), "baseidx".toList] ++ tagTexts s cells := by
  have silent {f : Engine PUnit} : CleanCall.silent f s ≠ .ok (some (.lea o), t) := by
    intro run
    obtain ⟨_, _, -, last⟩ := bind_eq_ok.mp run
    cases last
  have compares {f : Engine (Option CmpRecord)} :
      (Option.map Record.cmp <$> f) s ≠ .ok (some (.lea o), t) := by
    intro run
    obtain ⟨a, -, eq⟩ := emitted_iff.mp run
    cases a <;> cases eq
  cases c with
  | leaProp i dr br bs ir is n =>
    obtain ⟨a, run', eq⟩ := emitted_iff.mp run
    obtain ⟨o', rfl, same⟩ := Option.map_eq_some_iff.mp eq.symm
    cases same
    obtain ⟨v, read, bytes⟩ := fillRegTags_run (s := s) bounds.2.2.1
    have index8 : (regBytes ir is n).length ≤ 8 := by simpa [regBytes] using bounds.2.2.2
    have tables_run : tables s = .ok (s.sets, s) := rfl
    unfold fillRegTags at read
    rw [leaProp, bind_of_ok read, bind_of_ok tables_run, bytes, bind_of_ok (tagFields_run index8),
      bind_eq_ok] at run'
    obtain ⟨-, u, -, last⟩ := run'
    refine ⟨n, regBytes ir is n, bounds.2.2.2, by simp [regBytes], rfl, ?_⟩
    split_ifs at last
    · cases last
      rfl
    · cases last
  | cmpR2r | cmpM2r | cmpI2r | cmpR2m | cmpI2m | cmpM2m => exact absurd run compares
  | _ => exact absurd run silent

/-! ## Lines of the files -/

def Files.engineFile (files : Files) : OpcodeClass → OutFile
  | .cmp => files.out
  | .lea => files.outLea
  | _ => none

def Files.clientFile (files : Files) : OpcodeClass → OutFile
  | .cmp => files.gOut
  | .lea => files.gOutLea
  | _ => none

/-- The call adds `line` to the file of the class: to the engine's, by the fallback, or to the
client's, by its sink. -/
def CleanCall.Writes (app : AppView) (limitOffset gMaxoff : INT32) (c : CleanCall) (s : Shadow)
    (cls : OpcodeClass) (line : Text) : Prop :=
  line ≠ [] ∧ ∃ r t files written, c.run app limitOffset s = .ok (r, t) ∧
    (Files.engineFile files cls = some written ∧
        (emit noSinks limitOffset r files).engineFile cls = some (written ++ line) ∨
      Files.clientFile files cls = some written ∧
        (emit (vuzzerSinks gMaxoff) limitOffset r files).clientFile cls = some (written ++ line))

section Written

variable {app : AppView} {limitOffset gMaxoff : INT32} {c : CleanCall} {s t : Shadow}
  {r : Option Record} {cls : OpcodeClass} {line : Text} {files : Files}

/-- What a record adds to the file of a class. -/
def addedText (limit : INT32) (cls : OpcodeClass) : Option Record → Text
  | some (.cmp o) => if cls = .cmp then keptLine limit 3 19 o.fields else []
  | some (.lea o) => if cls = .lea then keptLine limit 2 10 o.fields else []
  | none => []

theorem emit_engineFile (cmp21 : ∀ o, r = some (.cmp o) → o.fields.length = 21)
    (lea10 : ∀ o, r = some (.lea o) → o.fields.length = 10) :
    (emit noSinks limitOffset r files).engineFile cls =
      (files.engineFile cls).map (· ++ addedText limitOffset cls r) := by
  match r with
  | none => simp [emit, addedText]
  | some (.cmp o) =>
    rw [emit_legacy_cmp files (cmp21 o rfl)]
    cases cls <;> simp [Files.addLegacy, Files.engineFile, addedText]
  | some (.lea o) =>
    rw [emit_legacy_lea files (lea10 o rfl)]
    cases cls <;> simp [Files.addLegacy, Files.engineFile, addedText]

/-- The client has sinks for both classes, so that the engine's limit does not matter. -/
theorem emit_any_limit : emit (vuzzerSinks gMaxoff) limitOffset r files =
    emit (vuzzerSinks gMaxoff) gMaxoff r files := by
  have cmp : hasSink (vuzzerSinks gMaxoff) .cmp = true := rfl
  have lea : hasSink (vuzzerSinks gMaxoff) .lea = true := rfl
  match r with
  | none => rfl
  | some (.cmp o) => simp only [emit, emitCmp, cmp, if_true]
  | some (.lea o) => simp only [emit, emitLea, lea, if_true]

theorem emit_clientFile : (emit (vuzzerSinks gMaxoff) limitOffset r files).clientFile cls =
    (files.clientFile cls).map (· ++ addedText gMaxoff cls r) := by
  match r with
  | none => simp [emit, addedText]
  | some (.cmp o) =>
    rw [emit_any_limit, emit_client_cmp files]
    cases cls <;> simp [Files.addClient, Files.clientFile, addedText]
  | some (.lea o) =>
    rw [emit_any_limit, emit_client_lea files]
    cases cls <;> simp [Files.addClient, Files.clientFile, addedText]

theorem CleanCall.Writes.addedText (bounds : c.InBounds) (sound : s.Sound)
    (writes : c.Writes app limitOffset gMaxoff s cls line) : ∃ r t limit,
      c.run app limitOffset s = .ok (r, t) ∧ line = LibdftDr.addedText limit cls r ∧ line ≠ [] := by
  obtain ⟨ne, r, t, files, written, run, ⟨before, after⟩ | ⟨before, after⟩⟩ := writes
  · have cmp21 : ∀ o, r = some (.cmp o) → o.fields.length = 21 := by
      rintro o rfl
      obtain ⟨k, -, fits, eq⟩ := cmpRecord_fields bounds sound run
      rw [eq, fits.fields_length]
    have lea10 : ∀ o, r = some (.lea o) → o.fields.length = 10 := by
      rintro o rfl
      obtain ⟨size, cells, size8, length, -, eq⟩ := leaRecord_fields bounds run
      simp [eq, tagTexts_length (length.trans_le size8)]
    rw [emit_engineFile cmp21 lea10, before] at after
    exact ⟨r, t, limitOffset, run, by simpa using after.symm, ne⟩
  · rw [emit_clientFile, before] at after
    exact ⟨r, t, gMaxoff, run, by simpa using after.symm, ne⟩

theorem CleanCall.Writes.cmp_decodes (bounds : c.InBounds) (sound : s.Sound)
    (writes : c.Writes app limitOffset gMaxoff s .cmp line) :
    ∃ e, c.cmpEvent app s = some e ∧ decodeCmp line = some e := by
  obtain ⟨r, t, limit, run, rfl, ne⟩ := writes.addedText bounds sound
  match r with
  | none => exact absurd rfl ne
  | some (.lea o) => exact absurd rfl ne
  | some (.cmp o) =>
    obtain ⟨k, hk, fits, eq⟩ := cmpRecord_fields bounds sound run
    refine ⟨k.event s, by rw [cmpEvent, hk, Option.map_some], ?_⟩
    change keptLine limit 3 19 o.fields ≠ [] at ne
    change decodeCmp (keptLine limit 3 19 o.fields) = _
    rw [keptLine_fields ne, eq, fits.decode sound]

theorem CleanCall.Writes.lea_decodes (bounds : c.InBounds) (sound : s.Sound)
    (writes : c.Writes app limitOffset gMaxoff s .lea line) :
    ∃ e, c.leaEvent s = some e ∧ decodeLea line = some e := by
  obtain ⟨r, t, limit, run, rfl, ne⟩ := writes.addedText bounds sound
  match r with
  | none => exact absurd rfl ne
  | some (.cmp o) => exact absurd rfl ne
  | some (.lea o) =>
    obtain ⟨size, cells, size8, length, event, eq⟩ := leaRecord_fields bounds run
    refine ⟨_, event, ?_⟩
    change keptLine limit 2 10 o.fields ≠ [] at ne
    change decodeLea (keptLine limit 2 10 o.fields) = _
    have free : ∀ f ∈ [decimal (size * 8), "baseidx".toList] ++ tagTexts s cells, ' ' ∉ f := by
      intro f hf
      simp only [List.cons_append, List.nil_append, List.mem_cons] at hf
      obtain rfl | rfl | hf := hf
      · exact not_mem_decimal (by decide) _
      · decide
      · exact blank_notMem_tagTexts f hf
    have index := readSet_tagTexts sound length [['\n']]
    rw [keptLine_fields ne, eq, decodeLea, splitOn_recordLine free]
    simp only [List.cons_append, List.nil_append, readWidth_decimal, index]

end Written

/-- A line of cmp.out or lea.out, from either writer, determines its event: the decoders recover
the width, the operand kind, the instruction's address, the label set of each operand byte and the
two values. So calls that write the same line have the same event. -/
theorem line_determines_event {app app' : AppView}
    {limitOffset gMaxoff limitOffset' gMaxoff' : INT32} {c c' : CleanCall} {s s' : Shadow}
    {line : Text} (bounds : c.InBounds) (sound : s.Sound) (bounds' : c'.InBounds)
    (sound' : s'.Sound) :
    (c.Writes app limitOffset gMaxoff s .cmp line →
      (∃ e, c.cmpEvent app s = some e ∧ decodeCmp line = some e) ∧
      (c'.Writes app' limitOffset' gMaxoff' s' .cmp line →
        c.cmpEvent app s = c'.cmpEvent app' s')) ∧
    (c.Writes app limitOffset gMaxoff s .lea line →
      (∃ e, c.leaEvent s = some e ∧ decodeLea line = some e) ∧
      (c'.Writes app' limitOffset' gMaxoff' s' .lea line → c.leaEvent s = c'.leaEvent s')) := by
  refine ⟨fun writes => ?_, fun writes => ?_⟩
  · obtain ⟨e, event, decoded⟩ := writes.cmp_decodes bounds sound
    refine ⟨⟨e, event, decoded⟩, fun writes' => ?_⟩
    obtain ⟨e', event', decoded'⟩ := writes'.cmp_decodes bounds' sound'
    rw [event, event', ← decoded, decoded']
  · obtain ⟨e, event, decoded⟩ := writes.lea_decodes bounds sound
    refine ⟨⟨e, event, decoded⟩, fun writes' => ?_⟩
    obtain ⟨e', event', decoded'⟩ := writes'.lea_decodes bounds' sound'
    rw [event, event', ← decoded, decoded']

/-- What comparing RAX with an immediate writes, when byte 4 has label 0, decodes to that. -/
theorem line_determines_event_cmp : ∃ line e,
    cmpRaxImmed.Writes idleApp 4 4 upperTainted .cmp line ∧ decodeCmp line = some e ∧
      e.width = 8 ∧ e.dstSort = .reg ∧ e.srcSort = .imm ∧ e.pc = 0x401000 ∧
      e.dest = [∅, ∅, ∅, ∅, {0}, ∅, ∅, ∅] ∧ e.src = [] ∧ e.sval = "0x7".toList := by
  have bounds : cmpRaxImmed.InBounds := ⟨⟨by decide, by decide⟩, by decide⟩
  have compares : Compares 4 upperTainted (regBytes DFT_REG_RAX 0 8)
      (cmpI2r 0x401000 DFT_REG_RAX 0 7 7 8) := cmpI2r_compares bounds.1 bounds.2
  obtain ⟨r, t, line, run, logged⟩ := compares.logged upperTainted_sound
  have writes : cmpRaxImmed.Writes idleApp 4 4 upperTainted .cmp line := by
    refine ⟨logged.written.mpr ⟨⟨.reg DFT_REG_RAX 4, by decide, by decide⟩, by decide⟩,
      r, t, ⟨some [], none, none, none⟩, [], run, .inl ⟨rfl, ?_⟩⟩
    rw [logged.legacy]
    rfl
  have determines : _ ∧ (cmpRaxImmed.Writes idleApp 4 4 upperTainted .cmp line → _) :=
    (line_determines_event bounds upperTainted_sound bounds upperTainted_sound).1 writes
  obtain ⟨⟨e, event, decoded⟩, -⟩ := determines
  cases event
  exact ⟨line, _, writes, decoded, rfl, rfl, rfl, rfl, by decide, rfl, by decide⟩

end LibdftDr
