import LibdftDr.Core.UpperHalf
import LibdftDr.Sinks.Records

/-!
# Lines of cmp.out and lea.out

Each comparing handler and LEA has a record exactly when its gate lets an operand byte through,
and the filtered fields of the record show the tags of those bytes. With the limit that the
engine and the client share, this decides whether a line is written, on either route.
-/
namespace LibdftDr
open Library Library.Action

def regBytes (row start n : ℕ) : List Cell := List.ofFn fun i : Fin n => .reg row (start + i)

def memBytes (addr : ADDRINT) (n : ℕ) : List Cell := List.ofFn fun i : Fin n => .mem (byteAt addr i)

namespace CleanCall

/-- The bytes whose tags are recorded: destination and source of a comparison, index of LEA. -/
def operandBytes : CleanCall → List Cell
  | .cmpR2r _ dr ds _ sr ss _ n => regBytes dr ds n ++ regBytes sr ss n
  | .cmpM2r _ dr ds _ a n => regBytes dr ds n ++ memBytes a n
  | .cmpI2r _ dr ds _ _ n => regBytes dr ds n
  | .cmpR2m _ a sr ss _ n => memBytes a n ++ regBytes sr ss n
  | .cmpI2m _ a _ n => memBytes a n
  | .cmpM2m _ da sa n => memBytes da n ++ memBytes sa n
  | .leaProp _ _ _ _ ir is n => regBytes ir is n
  | _ => []

/-- The class of the records, for the calls that have them. -/
def recordClass : CleanCall → Option OpcodeClass
  | .cmpR2r .. | .cmpM2r .. | .cmpI2r .. | .cmpR2m .. | .cmpI2m .. | .cmpM2m .. => some .cmp
  | .leaProp .. => some .lea
  | _ => none

end CleanCall

/-- There is a record if the gate lets a byte through, with `n` fields, of which those from
`lo` to `hi` show the bytes. -/
structure Recorded (s : Shadow) (gate : Tag → SetTable → Bool) (cells : List Cell) (lo hi n : ℕ)
    (r : Option (List Text)) : Prop where
  isSome : r.isSome = true ↔ ∃ b ∈ cells, gate (s.cell b) s.sets = true
  length : ∀ o ∈ r, o.length = n
  shows : ∀ o ∈ r, Shows s cells ((o.take hi).drop lo)

/-- The line that a record becomes, if it is kept. -/
def keptOf (limit : INT32) (lo hi : ℕ) (r : Option (List Text)) : Text :=
  (r.map (keptLine limit lo hi)).getD []

section Recorded

variable {s : Shadow} {gate : Tag → SetTable → Bool} {cells : List Cell} {lo hi n : ℕ}
  {r : Option (List Text)} {limit : INT32}

/-- A line is kept exactly when some byte is tainted and none exceeds the limit. -/
theorem Recorded.kept_iff (rec : Recorded s gate cells lo hi n r) (admits : Admits limit gate)
    (sound : s.Sound) : keptOf limit lo hi r ≠ [] ↔ (∃ b ∈ cells, s.labelsOf b ≠ ∅) ∧
      ∀ b ∈ cells, ((s.labelsOf b).card : ℤ) ≤ limit.toInt := by
  have gates := fun b => admits (s.cell b) s.sets sound.live (sound.known b)
  cases hr : r with
  | none =>
    have shut : ¬ ∃ b ∈ cells, gate (s.cell b) s.sets = true := by
      rw [← rec.isSome, hr]
      simp
    refine iff_of_false (by simp [keptOf]) ?_
    rintro ⟨⟨b, hb, ne⟩, le⟩
    exact shut ⟨b, hb, (gates b).2 ne (le b hb)⟩
  | some o =>
    obtain ⟨b, hb, through⟩ := rec.isSome.mp (by rw [hr]; rfl)
    have tainted : ∃ b ∈ cells, s.labelsOf b ≠ ∅ := ⟨b, hb, (gates b).1 through⟩
    have passes := (rec.shows o hr).passes_iff (m := limit.toInt) sound.live sound.known tainted
    simp only [keptOf, Option.map_some, Option.getD_some]
    rw [keptLine_ne_nil_iff, passes]
    exact ⟨fun h => ⟨tainted, h⟩, fun h => h.2⟩

end Recorded

/-! ## Operand bytes -/

section Operands

variable {s : Shadow} {row start size : ℕ} {addr : ADDRINT}

theorem fillRegTags_run (h : GprSpan row start size) : ∃ v : Vector Tag size,
    fillRegTags row start size s = .ok (v, s) ∧
      v.toList = (regBytes row start size).map s.cell := by
  refine ⟨_, gather_of_pure size (fun i => s.cell (.reg row (start + i))) fun i hi => ?_, ?_⟩
  · simp [gprGet, h.inFile hi, Shadow.cell]
  · simp [regBytes, List.map_ofFn, Function.comp_def, Vector.toList_ofFn]

theorem fillMemTags_run (h : InRange addr size) : ∃ v : Vector Tag size,
    fillMemTags addr size s = .ok (v, s) ∧ v.toList = (memBytes addr size).map s.cell := by
  refine ⟨_, gather_of_pure size (fun i => s.cell (.mem (byteAt addr i))) fun i hi => ?_, ?_⟩
  · exact getb_of_le (h i hi) s
  · simp [memBytes, List.map_ofFn, Function.comp_def, Vector.toList_ofFn]

/-- The eight tag fields of an operand. -/
def tagTexts (s : Shadow) (cells : List Cell) : List Text :=
  cells.map (fun b => tagSprint (s.cell b) s.sets) ++ List.replicate (8 - cells.length) noTag

theorem tagTexts_length {cells : List Cell} (h : cells.length ≤ 8) :
    (tagTexts s cells).length = 8 := by
  simp [tagTexts]
  omega

theorem tagTexts_shows (s : Shadow) (cells : List Cell) : Shows s cells (tagTexts s cells) where
  sound f hf := by
    obtain hf | hf := List.mem_append.mp hf
    · obtain ⟨b, hb, rfl⟩ := List.mem_map.mp hf
      exact .inr ⟨b, hb, rfl⟩
    · exact .inl (List.eq_of_mem_replicate hf)
  complete b hb := List.mem_append_left _ (List.mem_map.mpr ⟨b, hb, rfl⟩)

theorem Shows.append {c d : List Cell} {f g : List Text} (h : Shows s c f) (k : Shows s d g) :
    Shows s (c ++ d) (f ++ g) where
  sound x hx := by
    obtain hx | hx := List.mem_append.mp hx
    · exact (h.sound x hx).imp_right fun ⟨b, hb, e⟩ => ⟨b, List.mem_append_left _ hb, e⟩
    · exact (k.sound x hx).imp_right fun ⟨b, hb, e⟩ => ⟨b, List.mem_append_right _ hb, e⟩
  complete b hb := by
    obtain hb | hb := List.mem_append.mp hb
    · exact List.mem_append_left _ (h.complete b hb)
    · exact List.mem_append_right _ (k.complete b hb)

theorem tagFields_run {cells : List Cell} {t : Shadow} (h : cells.length ≤ 8) :
    tagFields (cells.map s.cell) s.sets t = .ok (tagTexts s cells, t) := by
  simp only [tagFields, List.length_map, h, if_true, tagTexts, List.map_map, Function.comp_def]
  rfl

end Operands

/-! ## The handlers -/

/-- A comparing handler: the shadow is as before, and the record shows the operand bytes. -/
def Compares (limit : INT32) (s : Shadow) (cells : List Cell) (f : Engine (Option CmpRecord)) :
    Prop :=
  ∃ r gate, f s = .ok (r, s) ∧ Admits limit gate ∧
    Recorded s gate cells 3 19 21 (r.map CmpRecord.fields)

section Handlers

variable {s : Shadow} {size dRow dStart sRow sStart : ℕ} {ins addr dstAddr srcAddr : ADDRINT}
  {dval sval : UINT64} {imm : UINT32} {mem : AppMem} {limit : INT32} {cells dest src : List Cell}

@[simp] theorem regBytes_length (row start n : ℕ) : (regBytes row start n).length = n := by
  simp [regBytes]

@[simp] theorem memBytes_length (addr : ADDRINT) (n : ℕ) : (memBytes addr n).length = n := by
  simp [memBytes]

/-- Of the 21 fields, those of the two operands are filtered. -/
theorem CmpRecord.filtered {o : CmpRecord} (hd : o.dest.length = 8) (hs : o.src.length = 8) :
    (o.fields.take 19).drop 3 = o.dest ++ o.src := by
  simp [CmpRecord.fields, List.take_append, hd, hs]

theorem compare_compares {operands dtext stext : Text} {gate : Tag → SetTable → Bool}
    {dtags stags : List Tag} (admits : Admits limit gate) (hd : dtags = dest.map s.cell)
    (hs : stags = src.map s.cell) (d8 : dest.length ≤ 8) (s8 : src.length ≤ 8) :
    Compares limit s (dest ++ src) (compare ins size operands gate dtags stags dtext stext) := by
  subst hd hs
  have any : (dest.map s.cell ++ src.map s.cell).any (gate · s.sets) = true ↔
      ∃ b ∈ dest ++ src, gate (s.cell b) s.sets = true := by
    rw [← List.map_append, List.any_map, List.any_eq_true]
    rfl
  have tables_run : tables s = .ok (s.sets, s) := rfl
  unfold Compares
  rw [compare, bind_of_ok tables_run, bind_of_ok (tagFields_run d8), bind_of_ok (tagFields_run s8)]
  split_ifs with through
  · refine ⟨_, gate, rfl, admits, ⟨fun _ => any.mp through, fun _ => rfl⟩, ?_, ?_⟩
    · rintro o ⟨⟩
      simp [CmpRecord.fields, tagTexts_length d8, tagTexts_length s8]
    · rintro o ⟨⟩
      rw [CmpRecord.filtered (tagTexts_length d8) (tagTexts_length s8)]
      exact (tagTexts_shows s dest).append (tagTexts_shows s src)
  · refine ⟨none, gate, rfl, admits, ⟨fun h => ?_, fun h => absurd (any.mpr h) through⟩,
      by simp, by simp⟩
    cases h

/-- With an immediate, there are no bytes of a source. -/
theorem compare_compares_immed {operands dtext stext : Text} {gate : Tag → SetTable → Bool}
    {dtags : List Tag} (admits : Admits limit gate) (hd : dtags = dest.map s.cell)
    (d8 : dest.length ≤ 8) :
    Compares limit s dest (compare ins size operands gate dtags [] dtext stext) := by
  have none : ([] : List Tag) = ([] : List Cell).map s.cell := rfl
  simpa only [List.append_nil] using compare_compares admits hd none d8 (Nat.zero_le 8)

/-- Reading before a comparison. -/
theorem Compares.after {α : Type} {f : Engine α} {k : α → Engine (Option CmpRecord)} {a : α}
    (read : f s = .ok (a, s)) (h : Compares limit s cells (k a)) :
    Compares limit s cells (f >>= k) := by
  obtain ⟨r, gate, run, rest⟩ := h
  exact ⟨r, gate, (bind_of_ok read).trans run, rest⟩

theorem memBytes_inRange (h : ∀ a, Cell.mem a ∈ memBytes addr size → a ≤ lastAddress) :
    InRange addr size :=
  fun i hi => h _ (List.mem_ofFn.mpr ⟨⟨i, hi⟩, rfl⟩)

/-- The first byte of an operand is tested; it is in range with the others. -/
theorem fileTagTestb_of_inRange (h : InRange addr size) (pos : 0 < size) :
    fileTagTestb addr = true := by
  have first := h 0 pos
  rw [byteAt_zero] at first
  exact fileTagTestb_iff.mpr first

/-- Nothing is compared when the test fails, which takes an operand without bytes. -/
theorem Compares.guarded {c : Prop} [Decidable c] {f : Engine (Option CmpRecord)}
    (test : 0 < size → c) (empty : size = 0 → cells = []) (h : Compares limit s cells f) :
    Compares limit s cells (if c then f else pure none) := by
  split_ifs with hc
  · exact h
  · obtain rfl := empty (Nat.eq_zero_of_not_pos fun pos => hc (test pos))
    exact ⟨none, anyTag, rfl, anyTag_admits limit, ⟨by simp, by simp, by simp⟩⟩

theorem cmpR2r_compares (hd : GprSpan dRow dStart size) (hs : GprSpan sRow sStart size)
    (h8 : size ≤ 8) : Compares limit s (regBytes dRow dStart size ++ regBytes sRow sStart size)
      (cmpR2r ins dRow dStart dval sRow sStart sval size) := by
  obtain ⟨d, readD, bytesD⟩ := fillRegTags_run (s := s) hd
  obtain ⟨u, readS, bytesS⟩ := fillRegTags_run (s := s) hs
  exact .after readD (.after readS
    (compare_compares (anyTag_admits limit) bytesD bytesS (by simpa) (by simpa)))

theorem cmpM2r_compares (hd : GprSpan dRow dStart size) (hm : InRange addr size) (h8 : size ≤ 8) :
    Compares limit s (regBytes dRow dStart size ++ memBytes addr size)
      (cmpM2r mem ins dRow dStart dval addr size) := by
  obtain ⟨d, readD, bytesD⟩ := fillRegTags_run (s := s) hd
  obtain ⟨u, readS, bytesS⟩ := fillMemTags_run (s := s) hm
  refine .after readD (.guarded (fileTagTestb_of_inRange hm) (by rintro rfl; rfl) ?_)
  exact .after readS (compare_compares (anyTag_admits limit) bytesD bytesS (by simpa) (by simpa))

theorem cmpI2r_compares (hd : GprSpan dRow dStart size) (h8 : size ≤ 8) :
    Compares limit s (regBytes dRow dStart size) (cmpI2r ins dRow dStart dval imm size) := by
  obtain ⟨d, readD, bytesD⟩ := fillRegTags_run (s := s) hd
  exact .after readD (compare_compares_immed (anyTag_admits limit) bytesD (by simpa))

theorem cmpR2m_compares (hm : InRange addr size) (hs : GprSpan sRow sStart size) (h8 : size ≤ 8) :
    Compares limit s (memBytes addr size ++ regBytes sRow sStart size)
      (cmpR2m mem ins addr sRow sStart sval size) := by
  obtain ⟨d, readD, bytesD⟩ := fillMemTags_run (s := s) hm
  obtain ⟨u, readS, bytesS⟩ := fillRegTags_run (s := s) hs
  refine .guarded (fileTagTestb_of_inRange hm) (by rintro rfl; rfl) (.after readD (.after readS ?_))
  exact compare_compares (anyTag_admits limit) bytesD bytesS (by simpa) (by simpa)

theorem cmpI2m_compares (hm : InRange addr size) (h8 : size ≤ 8) :
    Compares limit s (memBytes addr size) (cmpI2m mem ins addr imm size) := by
  obtain ⟨d, readD, bytesD⟩ := fillMemTags_run (s := s) hm
  refine .guarded (fileTagTestb_of_inRange hm) (by rintro rfl; rfl) (.after readD ?_)
  exact compare_compares_immed (anyTag_admits limit) bytesD (by simpa)

theorem cmpM2m_compares (hd : InRange dstAddr size) (hs : InRange srcAddr size) (h8 : size ≤ 8) :
    Compares limit s (memBytes dstAddr size ++ memBytes srcAddr size)
      (cmpM2m mem limit ins dstAddr srcAddr size) := by
  obtain ⟨d, readD, bytesD⟩ := fillMemTags_run (s := s) hd
  obtain ⟨u, readS, bytesS⟩ := fillMemTags_run (s := s) hs
  have both (pos : 0 < size) : (fileTagTestb dstAddr && fileTagTestb srcAddr) = true := by
    rw [fileTagTestb_of_inRange hd pos, fileTagTestb_of_inRange hs pos]
    rfl
  refine .guarded both (by rintro rfl; rfl) (.after readD (.after readS ?_))
  exact compare_compares (withinLimit_admits limit) bytesD bytesS (by simpa) (by simpa)

theorem leaProp_recorded {dstRow baseRow baseStart idxRow idxStart : ℕ}
    (hd : GprSpan dstRow 0 size) (hb : GprSpan baseRow baseStart size)
    (hi : GprSpan idxRow idxStart size) (h8 : size ≤ 8) (sound : s.Sound) : ∃ r t,
      leaProp ins dstRow baseRow baseStart idxRow idxStart size s = .ok (r, t) ∧
        Recorded s anyTag (regBytes idxRow idxStart size) 2 10 10 (r.map LeaRecord.fields) := by
  obtain ⟨returns, -⟩ := leaProp_flow hd hb hi h8 s ⟨sound, sound.within_univ⟩
    fun v (hv : v ∈ (∅ : Set Tag)) => absurd hv (Set.notMem_empty v)
  obtain ⟨r, t, run, -⟩ := returns trivial
  obtain ⟨v, read, bytes⟩ := fillRegTags_run (s := s) hi
  have tables_run : tables s = .ok (s.sets, s) := rfl
  have index8 : (regBytes idxRow idxStart size).length ≤ 8 := by simpa
  have any : v.toList.any tagCount = true ↔
      ∃ b ∈ regBytes idxRow idxStart size, anyTag (s.cell b) s.sets = true := by
    rw [bytes, List.any_map, List.any_eq_true]
    rfl
  refine ⟨r, t, run, ?_⟩
  unfold fillRegTags at read
  rw [leaProp, bind_of_ok read, bind_of_ok tables_run, bytes, bind_of_ok (tagFields_run index8),
    bind_eq_ok, ← bytes] at run
  obtain ⟨-, u, -, last⟩ := run
  split_ifs at last with through
  · cases last
    refine ⟨⟨fun _ => any.mp through, fun _ => rfl⟩, ?_, ?_⟩
    · rintro o ⟨⟩
      simp [LeaRecord.fields, tagTexts_length index8]
    · rintro o ⟨⟩
      have filtered : (tagTexts s (regBytes idxRow idxStart size)).take 8 = tagTexts s _ :=
        List.take_of_length_le (tagTexts_length index8).le
      simpa [LeaRecord.fields, filtered] using tagTexts_shows s _
  · cases last
    refine ⟨⟨fun h => ?_, fun h => absurd (any.mpr h) through⟩, by simp, by simp⟩
    cases h

end Handlers

/-! ## The lines -/

def Record.fields : Record → List Text
  | .cmp o => o.fields
  | .lea o => o.fields

/-- A line at the end of the engine's file. -/
def Files.addLegacy (files : Files) (cls : OpcodeClass) (line : Text) : Files :=
  match cls with
  | .cmp => { files with out := files.out.map (· ++ line) }
  | .lea => { files with outLea := files.outLea.map (· ++ line) }
  | _ => files

/-- A line at the end of the client's file. -/
def Files.addClient (files : Files) (cls : OpcodeClass) (line : Text) : Files :=
  match cls with
  | .cmp => { files with gOut := files.gOut.map (· ++ line) }
  | .lea => { files with gOutLea := files.gOutLea.map (· ++ line) }
  | _ => files

/-- What becomes of the record of a call with the operand bytes `cells`: `line` is written, the
same on both routes, and there is one if a byte is tainted and none exceeds the limit. -/
structure Logged (maxoff : INT32) (cls : OpcodeClass) (cells : List Cell) (s : Shadow)
    (r : Option Record) (line : Text) : Prop where
  legacy : ∀ files, emit noSinks maxoff r files = files.addLegacy cls line
  client : ∀ files, emit (vuzzerSinks maxoff) maxoff r files = files.addClient cls line
  fields : line ≠ [] → ∃ o ∈ r, line = recordLine o.fields
  written : line ≠ [] ↔ (∃ b ∈ cells, s.labelsOf b ≠ ∅) ∧
    ∀ b ∈ cells, ((s.labelsOf b).card : ℤ) ≤ maxoff.toInt

section Logged

variable {s : Shadow} {maxoff : INT32} {cells : List Cell} {gate : Tag → SetTable → Bool}

@[simp] theorem Files.addLegacy_nil (files : Files) (cls : OpcodeClass) :
    files.addLegacy cls [] = files := by
  cases cls <;> simp [Files.addLegacy]

@[simp] theorem Files.addClient_nil (files : Files) (cls : OpcodeClass) :
    files.addClient cls [] = files := by
  cases cls <;> simp [Files.addClient]

theorem keptLine_fields {limit : INT32} {lo hi : ℕ} {fields : List Text}
    (h : keptLine limit lo hi fields ≠ []) : keptLine limit lo hi fields = recordLine fields := by
  unfold keptLine at h ⊢
  split_ifs at h ⊢
  · exact absurd rfl h
  · rfl

/-- A class of records is written correctly if each record's line is. -/
theorem Recorded.logged {α : Type} {mk : α → Record} {fields : α → List Text} {cls : OpcodeClass}
    {lo hi n : ℕ} {r : Option α} (h : Recorded s gate cells lo hi n (r.map fields))
    (admits : Admits maxoff gate) (sound : s.Sound) (same : ∀ o, (mk o).fields = fields o)
    (legacy : ∀ o files, (fields o).length = n →
      emit noSinks maxoff (some (mk o)) files =
        files.addLegacy cls (keptLine maxoff lo hi (fields o)))
    (client : ∀ o files, emit (vuzzerSinks maxoff) maxoff (some (mk o)) files =
      files.addClient cls (keptLine maxoff lo hi (fields o))) :
    Logged maxoff cls cells s (r.map mk) (keptOf maxoff lo hi (r.map fields)) := by
  have written := h.kept_iff admits sound
  cases r with
  | none =>
    exact ⟨fun files => (files.addLegacy_nil cls).symm, fun files => (files.addClient_nil cls).symm,
      fun ne => absurd rfl ne, written⟩
  | some o =>
    refine ⟨fun files => legacy o files (h.length _ rfl), client o, fun ne => ⟨mk o, rfl, ?_⟩,
      written⟩
    rw [same]
    exact keptLine_fields ne

theorem emit_legacy_cmp {o : CmpRecord} (files : Files) (h : o.fields.length = 21) :
    emit noSinks maxoff (some (.cmp o)) files =
      files.addLegacy .cmp (keptLine maxoff 3 19 o.fields) := by
  change { files with out := legacyWrite maxoff 3 19 21 o.fields files.out } = _
  rw [legacyWrite_eq h]
  rfl

theorem emit_client_cmp {o : CmpRecord} (files : Files) :
    emit (vuzzerSinks maxoff) maxoff (some (.cmp o)) files =
      files.addClient .cmp (keptLine maxoff 3 19 o.fields) := by
  change { files with gOut := writeRecord maxoff o.fields 3 19 files.gOut } = _
  rw [writeRecord_eq]
  rfl

theorem emit_legacy_lea {o : LeaRecord} (files : Files) (h : o.fields.length = 10) :
    emit noSinks maxoff (some (.lea o)) files =
      files.addLegacy .lea (keptLine maxoff 2 10 o.fields) := by
  change { files with outLea := legacyWrite maxoff 2 10 10 o.fields files.outLea } = _
  rw [legacyWrite_eq h]
  rfl

theorem emit_client_lea {o : LeaRecord} (files : Files) :
    emit (vuzzerSinks maxoff) maxoff (some (.lea o)) files =
      files.addClient .lea (keptLine maxoff 2 10 o.fields) := by
  change { files with gOutLea := writeRecord maxoff o.fields 2 10 files.gOutLea } = _
  rw [writeRecord_eq]
  rfl

theorem Compares.logged {f : Engine (Option CmpRecord)} (h : Compares maxoff s cells f)
    (sound : s.Sound) : ∃ r t line, (Option.map Record.cmp <$> f) s = .ok (r, t) ∧
      Logged maxoff .cmp cells s r line := by
  obtain ⟨r, gate, run, admits, recorded⟩ := h
  exact ⟨_, s, _, map_of_ok run, recorded.logged admits sound (fun _ => rfl)
    (fun _ files => emit_legacy_cmp files) fun _ => emit_client_cmp⟩

end Logged

/-- A comparing handler or LEA whose memory operands are in range writes a line, the same on
both routes, exactly when some operand byte is tainted and none has more labels than the limit. -/
theorem record_written_iff {app : AppView} {maxoff : INT32} {c : CleanCall} {cls : OpcodeClass}
    {s : Shadow} (records : c.recordClass = some cls) (bounds : c.InBounds)
    (inRange : ∀ a, Cell.mem a ∈ c.operandBytes → a ≤ lastAddress) (sound : s.Sound) :
    ∃ r t line, c.run app maxoff s = .ok (r, t) ∧ Logged maxoff cls c.operandBytes s r line := by
  have left {l : List Cell} {addr n}
      (h : ∀ a, Cell.mem a ∈ memBytes addr n ++ l → a ≤ lastAddress) :
      InRange addr n := memBytes_inRange fun a ha => h a (List.mem_append_left l ha)
  have right {l : List Cell} {addr n}
      (h : ∀ a, Cell.mem a ∈ l ++ memBytes addr n → a ≤ lastAddress) :
      InRange addr n := memBytes_inRange fun a ha => h a (List.mem_append_right l ha)
  cases c with
  | cmpR2r =>
    cases records
    exact (cmpR2r_compares bounds.1 bounds.2.1 bounds.2.2).logged sound
  | cmpM2r =>
    cases records
    exact (cmpM2r_compares bounds.1 (right inRange) bounds.2).logged sound
  | cmpI2r =>
    cases records
    exact (cmpI2r_compares bounds.1 bounds.2).logged sound
  | cmpR2m =>
    cases records
    exact (cmpR2m_compares (left inRange) bounds.1 bounds.2).logged sound
  | cmpI2m =>
    cases records
    exact (cmpI2m_compares (memBytes_inRange inRange) bounds).logged sound
  | cmpM2m =>
    cases records
    exact (cmpM2m_compares (left inRange) (right inRange) bounds).logged sound
  | leaProp =>
    cases records
    obtain ⟨r, t, run, recorded⟩ :=
      leaProp_recorded bounds.1 bounds.2.1 bounds.2.2.1 bounds.2.2.2 sound
    exact ⟨_, t, _, map_of_ok run, recorded.logged (anyTag_admits maxoff) sound (fun _ => rfl)
      (fun _ files => emit_legacy_lea files) fun _ => emit_client_lea⟩
  | _ => cases records

/-- `cmp rax, 7`. -/
def cmpRaxImmed : CleanCall := .cmpI2r 0x401000 DFT_REG_RAX 0 7 7 8

/-- Comparing RAX with an immediate, when one byte has one label, writes a line. -/
theorem record_written_iff_tainted : ∃ r t line,
    cmpRaxImmed.run idleApp 4 upperTainted = .ok (r, t) ∧ line ≠ [] ∧
      ∀ files, emit (vuzzerSinks 4) 4 r files = files.addClient .cmp line := by
  obtain ⟨r, t, line, run, logged⟩ : ∃ r t line,
      cmpRaxImmed.run idleApp 4 upperTainted = .ok (r, t) ∧
        Logged 4 .cmp cmpRaxImmed.operandBytes upperTainted r line :=
    record_written_iff rfl ⟨⟨by decide, by decide⟩, by decide⟩
      (by simp [cmpRaxImmed, CleanCall.operandBytes, regBytes]) upperTainted_sound
  refine ⟨r, t, line, run, logged.written.mpr ⟨⟨.reg DFT_REG_RAX 4, ?_, ?_⟩, ?_⟩, logged.client⟩
  · decide
  · decide
  · decide

end LibdftDr
