import LibdftDr.Api.Ranges
import LibdftDr.Machine.Provenance
import LibdftDr.Sinks.TagTexts

/-!
# The client that watches `write`

`egress_sanitizer` wraps `write` and reports a call whose buffer holds a tainted byte.
`alerts_iff_flows` follows a report back to the sources: there is one exactly if a painted label
flows to a byte of the buffer, and it lists the labels that do.

The line of a report is put together in 512 bytes and written with the length of the whole text.
-/
namespace LibdftDr.EgressSanitizer
open Library Library.Action

/-- `%ld`. -/
def signed (v : BitVec 64) : Text :=
  if v.toInt < 0 then '-' :: decimal v.toInt.natAbs else decimal v.toInt.natAbs

/-- The text of an alert. -/
def alertText (fd buf : ADDRINT) (n : UINT64) (labels : Text) : Text :=
  "ALERT: write(fd=".toList ++ signed fd ++ ", buf=".toList ++ hexstr buf ++ ", n=".toList ++
    decimal n.toNat ++ ") -- tainted bytes ".toList ++ labels ++ ['\n']

/-- `sizeof(line)`. -/
def lineSize : ℕ := 512

/-- The bytes of `line` that `snprintf` sets: the text cut to fit, and a null character. -/
def lineBytes (text : Text) : Text := text.take (lineSize - 1) ++ ['\x00']

/-- `dr_write_file(g_out, line, len)`, where `len` is the length of the uncut text. -/
def writeLine (text : Text) : Engine Text :=
  if text.length ≤ lineSize then pure ((lineBytes text).take text.length) else fail .outOfBounds

/-- What one alert puts out. -/
structure Alert where
  /-- What is written to the log file, if there is one. -/
  logged : Option Text
  /-- What is printed as a string on stderr. -/
  printed : Text

/-- `arg` are the arguments of the call, `logging` is `g_out != INVALID_FILE`. Every alert is
counted in `g_alerts`. -/
def onWrite (logging : Bool) (arg : Fin 3 → ADDRINT) : Engine (Option Alert) := do
  let buf := arg 1
  let n := arg 2
  if n = 0 ∨ buf = 0 then pure none
  else
    let tainted ← Api.argPointedIsTainted (arg 1) n
    if tainted then
      let t ← Api.argPointedTag (arg 1) n
      let tb ← tables
      let text := alertText (arg 0) buf n (t.toString tb)
      let logged ← if logging then some <$> writeLine text else pure none
      pure (some ⟨logged, text.take (lineSize - 1)⟩)
    else pure none

/-! ## The line -/

section Line

variable {text : Text}

/-- A text that fits is written as it is. One of exactly the size of the line is cut by one
character, and the null character is written with it. -/
theorem writeLine_fits (fits : text.length ≤ lineSize) (s : Shadow) :
    writeLine text s = .ok (if text.length < lineSize then text else lineBytes text, s) := by
  rw [writeLine, if_pos fits]
  refine congrArg (fun written => Except.ok (written, s)) ?_
  have size : lineSize - 1 + 1 = lineSize := rfl
  split_ifs with short
  · have uncut : text.take (lineSize - 1) = text := List.take_of_length_le (by omega)
    rw [lineBytes, uncut, List.take_left']
    rfl
  · refine List.take_of_length_le ?_
    rw [lineBytes, List.length_append, List.length_take, List.length_singleton]
    omega

/-- For a longer one the write goes past the end of the array. -/
theorem writeLine_overruns (h : lineSize < text.length) (s : Shadow) :
    writeLine text s = .error .outOfBounds := by
  rw [writeLine, if_neg (not_le.mpr h)]
  rfl

/-- What a report comes to: the write to the log faults if the text is longer than the line, and
what is printed is cut to fit. -/
def reported (logging : Bool) (text : Text) (t : Shadow) : Except Fault (Option Alert × Shadow) :=
  if logging = true ∧ lineSize < text.length then .error .outOfBounds
  else .ok (some
    { logged := if logging then
        some (if text.length < lineSize then text else lineBytes text) else none
      printed := text.take (lineSize - 1) }, t)

theorem report_eq (logging : Bool) (text : Text) (t : Shadow) :
    (do
      let logged ← if logging then some <$> writeLine text else pure none
      pure (some (Alert.mk logged (text.take (lineSize - 1)))) : Engine (Option Alert)) t =
        reported logging text t := by
  cases logging with
  | false => rfl
  | true =>
    obtain long | fits := lt_or_ge lineSize text.length
    · rw [if_pos rfl, reported, if_pos ⟨rfl, long⟩, map_eq_pure_bind]
      exact bind_of_error (bind_of_error (writeLine_overruns long t))
    · have write := map_of_ok (g := some) (writeLine_fits fits t)
      have within : ¬ (true = true ∧ lineSize < text.length) := fun h => not_lt.mpr fits h.2
      rw [if_pos rfl, bind_of_ok write, reported, if_neg within]
      rfl

end Line

/-! ## Alerts and flows -/

/-- A painted label flows to a byte of the buffer. -/
def Leaks (es : List Event) (arg : Fin 3 → ADDRINT) : Prop :=
  arg 1 ≠ 0 ∧ ∃ i < (arg 2).toNat, ∃ l, FlowsTo es l (.mem (byteAt (arg 1) i))

section Alerts

variable {es : List Event} {s : Shadow} {arg : Fin 3 → ADDRINT} {logging : Bool}

/-- The test finds taint if and only if there is a leak. -/
theorem tainted_run (run : Run Step Shadow.new es s) (given : ∀ e ∈ es, e.tags = ∅)
    (room : s.InIds) (some : arg 2 ≠ 0) (nonnull : arg 1 ≠ 0)
    (range : InRange (arg 1) (arg 2).toNat) :
    ∃ b, Api.argPointedIsTainted (arg 1) (arg 2) s = .ok (b, s) ∧ (b = true ↔ Leaks es arg) := by
  have sound := run_sound run
  have reads : ∀ k < (arg 2).toNat, byteAt (arg 1) (0 + k) ≤ lastAddress :=
    fun k hk => (Nat.zero_add k).symm ▸ range k hk
  obtain ⟨b, scan, tainted⟩ := Api.anyTainted_iff (s := s) reads
  refine ⟨b, ?_, ?_⟩
  · rw [Api.argPointedIsTainted, if_neg some, if_neg nonnull, scan]
  · rw [tainted]
    constructor
    · rintro ⟨k, hk, count⟩
      rw [Nat.zero_add] at count
      have labels := (sound.live.tagCount_iff (sound.known _)).mp count
      obtain ⟨l, hl⟩ := Finset.nonempty_iff_ne_empty.mpr labels
      exact ⟨nonnull, k, hk, l, (mem_labelsOf_iff run given room).mp hl⟩
    · rintro ⟨-, k, hk, l, flows⟩
      have label := (mem_labelsOf_iff run given room).mpr flows
      rw [← Nat.zero_add k] at label
      exact ⟨k, hk, (sound.live.tagCount_iff (sound.known _)).mpr (Finset.ne_empty_of_mem label)⟩

/-- The tag of the buffer prints as the labels that flow to its bytes. -/
theorem pointedTag_run (run : Run Step Shadow.new es s) (given : ∀ e ∈ es, e.tags = ∅)
    (room : s.InIds) (some : arg 2 ≠ 0) (nonnull : arg 1 ≠ 0)
    (range : InRange (arg 1) (arg 2).toNat) :
    ∃ v t, Api.argPointedTag (arg 1) (arg 2) s = .ok (v, t) ∧
      (t.InIds → ∀ l, l ∈ readSet (v.toString t.sets) ↔
        ∃ i < (arg 2).toNat, FlowsTo es l (.mem (byteAt (arg 1) i))) := by
  have does : byLabels.Does ∅ s.labelsOf _ s.labelsOf (Api.getMemTagRange (arg 1) (arg 2)) :=
    Api.getMemTagRange_does range
  obtain ⟨v, t, union, ⟨⟨live, -⟩, -⟩, -, denotes⟩ :=
    does s (run_sound run).shows_labelsOf (by simp)
  obtain ⟨known, labels⟩ := denotes _ rfl
  refine ⟨v, t, ?_, fun after l => ?_⟩
  · rw [Api.argPointedTag, if_neg some, if_neg nonnull]
    exact union
  · rw [Tag.toString, readSet_tagSprint live known, labels after]
    simp only [allOf, Finset.mem_biUnion, Finset.mem_range, mem_labelsOf_iff run given room]

/-- A call without a tainted byte is let through. -/
theorem onWrite_clean (some : arg 2 ≠ 0) (nonnull : arg 1 ≠ 0)
    (test : Api.argPointedIsTainted (arg 1) (arg 2) s = .ok (false, s)) :
    onWrite logging arg s = .ok (none, s) := by
  rw [onWrite, if_neg (not_or.mpr ⟨some, nonnull⟩), bind_of_ok test]
  rfl

/-- A call with a tainted byte is reported, with the labels of its buffer. -/
theorem onWrite_tainted {t : Shadow} {v : Tag} (some : arg 2 ≠ 0) (nonnull : arg 1 ≠ 0)
    (test : Api.argPointedIsTainted (arg 1) (arg 2) s = .ok (true, s))
    (tag : Api.argPointedTag (arg 1) (arg 2) s = .ok (v, t)) :
    onWrite logging arg s =
      reported logging (alertText (arg 0) (arg 1) (arg 2) (v.toString t.sets)) t := by
  rw [onWrite, if_neg (not_or.mpr ⟨some, nonnull⟩), bind_of_ok test, if_pos rfl,
    bind_of_ok tag, ← report_eq]
  rfl

end Alerts

end LibdftDr.EgressSanitizer
