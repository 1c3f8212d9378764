import LibdftDr.Core.CleanCall
import Mathlib.Data.Int.Order.Basic

/-!
# Records on their way to a file

A record of a CMP or LEA goes to the registered sinks, or, when there are none, to the writer
the engine falls back on. The client's sink and the fallback both drop a record with a tag
of more labels than the limit.

The two routes write the same bytes: a line if some operand byte is tainted and none has more
labels than the limit.
-/
namespace LibdftDr
open Library Library.Action

/-- `file_t`: what has been written to the file, or `none` for `INVALID_FILE`. -/
abbrev OutFile := Option Text

/-- The tokens that splitting at commas yields. Its counter is an `int`; a field with more
commas than that counts would be undefined behaviour. -/
def commaTokens (s : Text) : ℤ := s.count ',' + 1

/-- A blank after each field, then a newline. -/
def recordLine (fields : List Text) : Text := fields.flatMap (· ++ [' ']) ++ ['\n']

/-! ## The fallback -/

/-- The two fallback writers: fields `lo` to `hi` are filtered, the first `n` are written. -/
def legacyWrite (limitOffset : INT32) (lo hi n : ℕ) (o : List Text) (out : OutFile) : OutFile :=
  match out with
  | none => none
  | some written =>
    if ((o.take hi).drop lo).any fun f => limitOffset.toInt < commaTokens f then some written
    else some (written ++ recordLine (o.take n))

def legacyWriteCmp (limitOffset : INT32) (o : List Text) (out : OutFile) : OutFile :=
  legacyWrite limitOffset 3 19 21 o out

def legacyWriteLea (limitOffset : INT32) (o : List Text) (outLea : OutFile) : OutFile :=
  legacyWrite limitOffset 2 10 10 o outLea

/-! ## Sinks -/

inductive OpcodeClass where
  | cmp | lea | memLoad | memStore | branch | call | ret
  deriving DecidableEq

structure SinkPayload where
  legacyFields : List Text
  operandTags : List Tag

structure SinkContext where
  pc : ADDRINT
  payload : SinkPayload

/-- The files of the engine, and those of the client. -/
structure Files where
  out : OutFile
  outLea : OutFile
  gOut : OutFile
  gOutLea : OutFile

abbrev SinkCb := SinkContext → Files → Files

/-- `g_opcode_sinks`. -/
abbrev OpcodeSinks := OpcodeClass → List SinkCb

def registerSink (sinks : OpcodeSinks) (cls : OpcodeClass) (cb : SinkCb) : OpcodeSinks :=
  Function.update sinks cls (sinks cls ++ [cb])

def hasSink (sinks : OpcodeSinks) (cls : OpcodeClass) : Bool := !(sinks cls).isEmpty

def dispatchSink (sinks : OpcodeSinks) (cls : OpcodeClass) (ctx : SinkContext) (files : Files) :
    Files := (sinks cls).foldl (fun files cb => cb ctx files) files

def emitCmp (sinks : OpcodeSinks) (limitOffset : INT32) (o : CmpRecord) (files : Files) : Files :=
  if hasSink sinks .cmp then dispatchSink sinks .cmp ⟨o.pc, o.fields, o.operandTags⟩ files
  else { files with out := legacyWriteCmp limitOffset o.fields files.out }

def emitLea (sinks : OpcodeSinks) (limitOffset : INT32) (o : LeaRecord) (files : Files) : Files :=
  if hasSink sinks .lea then dispatchSink sinks .lea ⟨o.pc, o.fields, o.operandTags⟩ files
  else { files with outLea := legacyWriteLea limitOffset o.fields files.outLea }

/-- What a clean call hands on, if it has a record. -/
def emit (sinks : OpcodeSinks) (limitOffset : INT32) (r : Option Record) (files : Files) : Files :=
  match r with
  | none => files
  | some (.cmp o) => emitCmp sinks limitOffset o files
  | some (.lea o) => emitLea sinks limitOffset o files

/-! ## The client -/

def writeRecord (gMaxoff : INT32) (fields : List Text) (filterLo filterHi : ℕ) (fh : OutFile) :
    OutFile :=
  match fh with
  | none => none
  | some written =>
    if ((fields.take filterHi).drop filterLo).any fun f => gMaxoff.toInt < commaTokens f then
      some written
    else some (written ++ recordLine fields)

def onCmpSink (gMaxoff : INT32) : SinkCb := fun ctx files =>
  { files with gOut := writeRecord gMaxoff ctx.payload.legacyFields 3 19 files.gOut }

def onLeaSink (gMaxoff : INT32) : SinkCb := fun ctx files =>
  { files with gOutLea := writeRecord gMaxoff ctx.payload.legacyFields 2 10 files.gOutLea }

def noSinks : OpcodeSinks := fun _ => []

/-- The sinks that `dr_client_main` registers. -/
def vuzzerSinks (gMaxoff : INT32) : OpcodeSinks :=
  registerSink (registerSink noSinks .cmp (onCmpSink gMaxoff)) .lea (onLeaSink gMaxoff)

/-! ## What is written -/

/-- The bytes that a record adds: its line, or nothing when a filtered field is too long. -/
def keptLine (limit : INT32) (lo hi : ℕ) (fields : List Text) : Text :=
  if ((fields.take hi).drop lo).any fun f => limit.toInt < commaTokens f then []
  else recordLine fields

theorem legacyWrite_eq {limitOffset : INT32} {lo hi n : ℕ} {o : List Text} (hn : o.length = n)
    (out : OutFile) :
    legacyWrite limitOffset lo hi n o out = out.map (· ++ keptLine limitOffset lo hi o) := by
  subst hn
  cases out with
  | none => rfl
  | some written =>
    simp only [legacyWrite, keptLine, List.take_length, Option.map_some]
    split_ifs <;> simp

theorem writeRecord_eq {gMaxoff : INT32} {lo hi : ℕ} {fields : List Text} (fh : OutFile) :
    writeRecord gMaxoff fields lo hi fh = fh.map (· ++ keptLine gMaxoff lo hi fields) := by
  cases fh with
  | none => rfl
  | some written =>
    simp only [writeRecord, keptLine, Option.map_some]
    split_ifs <;> simp

theorem recordLine_ne_nil (fields : List Text) : recordLine fields ≠ [] := by
  simp [recordLine]

theorem keptLine_ne_nil_iff {limit : INT32} {lo hi : ℕ} {fields : List Text} :
    keptLine limit lo hi fields ≠ [] ↔
      ∀ f ∈ (fields.take hi).drop lo, commaTokens f ≤ limit.toInt := by
  unfold keptLine
  split_ifs with h
  · refine iff_of_false (fun ne => ne rfl) fun all => ?_
    obtain ⟨f, hf, long⟩ := List.any_eq_true.mp h
    exact absurd (all f hf) (not_le.mpr (of_decide_eq_true long))
  · refine iff_of_true (recordLine_ne_nil fields) fun f hf => not_lt.mp fun long => h ?_
    exact List.any_eq_true.mpr ⟨f, hf, decide_eq_true long⟩

/-! ## Tags as they are printed -/

section Texts

variable {tb : SetTable} {t : Tag}

/-- A token for each label, and one for the empty set. -/
theorem commaTokens_tagSprint (live : tb.Live) (known : tb.Knows t) :
    commaTokens (tagSprint t tb) = max 1 ((tb.setOf t).card : ℤ) := by
  obtain ⟨s, hs⟩ := SetTable.knows_iff.mp known
  have free : ∀ f ∈ s.members.map decimal, ',' ∉ f := by
    intro f hf
    obtain ⟨n, -, rfl⟩ := List.mem_map.mp hf
    exact not_mem_decimal (by decide) n
  have commas : s.print.count ',' = s.members.length - 1 := by
    simp [Ewah.print, List.count_append, count_separated free]
  rw [live.tagSprint_eq hs, SetTable.setOf_eq hs, Ascending.card_toFinset, commaTokens, commas]
  omega

/-- The texts are those of the cells' tags, with empty ones among them. -/
structure Shows (s : Shadow) (cells : List Cell) (texts : List Text) : Prop where
  sound : ∀ f ∈ texts, f = noTag ∨ ∃ b ∈ cells, f = tagSprint (s.cell b) s.sets
  complete : ∀ b ∈ cells, tagSprint (s.cell b) s.sets ∈ texts

/-- With a tainted byte among them, texts pass the filter when no byte exceeds the limit. -/
theorem Shows.passes_iff {s : Shadow} {cells : List Cell} {texts : List Text} {m : ℤ}
    (shows : Shows s cells texts) (live : s.sets.Live) (known : ∀ b, s.sets.Knows (s.cell b))
    (tainted : ∃ b ∈ cells, s.labelsOf b ≠ ∅) :
    (∀ f ∈ texts, commaTokens f ≤ m) ↔ ∀ b ∈ cells, ((s.labelsOf b).card : ℤ) ≤ m := by
  constructor
  · intro h b hb
    have := h _ (shows.complete b hb)
    rw [commaTokens_tagSprint live (known b)] at this
    exact (le_max_right _ _).trans this
  · intro h f hf
    have one : 1 ≤ m := by
      obtain ⟨b, hb, ne⟩ := tainted
      have pos : 0 < (s.labelsOf b).card :=
        Finset.card_pos.mpr (Finset.nonempty_iff_ne_empty.mpr ne)
      have := h b hb
      omega
    obtain rfl | ⟨b, hb, rfl⟩ := shows.sound f hf
    · exact one
    · rw [commaTokens_tagSprint live (known b)]
      exact max_le one (h b hb)

end Texts

/-! ## Gates -/

/-- A gate lets no untainted byte through, and every tainted one within the limit. -/
def Admits (limit : INT32) (gate : Tag → SetTable → Bool) : Prop :=
  ∀ t tb, SetTable.Live tb → tb.Knows t → (gate t tb = true → tb.setOf t ≠ ∅) ∧
    (tb.setOf t ≠ ∅ → ((tb.setOf t).card : ℤ) ≤ limit.toInt → gate t tb = true)

theorem anyTag_admits (limit : INT32) : Admits limit anyTag := fun _ _ live known =>
  ⟨(live.tagCount_iff known).mp, fun ne _ => (live.tagCount_iff known).mpr ne⟩

/-- The limit is cast to 64 unsigned bits, which for a negative one admits everything tainted. -/
theorem withinLimit_admits (limit : INT32) : Admits limit (withinLimit limit) := by
  intro t tb live known
  have count : ((t.numberOfOnes tb).setWidth 64).toNat = (tb.setOf t).card % 2 ^ 32 := by
    rw [live.numberOfOnes_eq known, BitVec.toNat_setWidth, BitVec.toNat_ofNat]
    omega
  simp only [withinLimit, Bool.and_eq_true, decide_eq_true_eq, BitVec.lt_def, BitVec.le_def, count]
  constructor
  · rintro ⟨pos, -⟩ empty
    simp [empty] at pos
  · intro ne le
    have pos : 0 < (tb.setOf t).card := Finset.card_pos.mpr (Finset.nonempty_iff_ne_empty.mpr ne)
    have msb : limit.msb = false := by
      rw [BitVec.msb_eq_toInt]
      exact decide_eq_false (by omega)
    have small := limit.isLt
    have nat : limit.toInt = limit.toNat := BitVec.toInt_eq_toNat_of_msb msb
    rw [BitVec.signExtend_eq_setWidth_of_msb_false msb, BitVec.toNat_setWidth]
    have zero : (0 : UINT64).toNat = 0 := rfl
    omega

end LibdftDr
