import LibdftDr.Library.Views
import LibdftDr.Core.Lea

/-!
# What tags mean

A handler copies tags, or it unites label sets. `Meaning` is the common form of the two
readings of a tag: by its id, for handlers that copy and leave the tables alone, and by its
labels, for handlers that unite. A handler is then a function on what the cells denote: its
`_does` theorem gives that function as rounds of `put` and `join`.
-/
namespace LibdftDr
open Library Library.Action

/-- What a tag stands for, with the tables as they are. -/
structure Meaning (ν : Type) where
  Ok : SetTable → Prop
  Denotes : SetTable → Tag → ν → Prop
  Le : SetTable → SetTable → Prop
  refl : ∀ tb, Le tb tb
  trans : ∀ {a b c}, Le a b → Le b c → Le a c
  mono : ∀ {a b t v}, Le a b → Denotes a t v → Denotes b t v

/-- The table has not run out of ids. -/
def Shadow.InIds (s : Shadow) : Prop := s.sets.gSets.length ≤ idSpace

/-- A tag as its id, while the tables are `tb`. -/
def byId (tb : SetTable) : Meaning Tag where
  Ok := (tb = ·)
  Denotes _ t v := t = v
  Le := Eq
  refl _ := rfl
  trans := Eq.trans
  mono _ h := h

/-- A tag as its labels, as far as the table has ids for them. -/
def byLabels : Meaning (Finset ℕ) where
  Ok tb := tb.Live ∧ (tb.gSets.length ≤ idSpace → tb.Exact)
  Denotes tb t l := tb.Knows t ∧ (tb.gSets.length ≤ idSpace → tb.setOf t = l)
  Le := SetTable.Grows
  refl := SetTable.Grows.refl
  trans := SetTable.Grows.trans
  mono grows h := by
    refine ⟨grows.knows h.1, fun room => ?_⟩
    rw [grows.setOf h.1]
    exact h.2 (grows.length_le.trans room)

namespace Meaning

variable {ν : Type} {d : Meaning ν}

/-- The cells of a state as what their tags denote. -/
def view (d : Meaning ν) : View Shadow Tag (Cell → ν) ν where
  Shows s m := d.Ok s.sets ∧ ∀ c, d.Denotes s.sets (s.cell c) (m c)
  Denotes s := d.Denotes s.sets
  Le s t := d.Le s.sets t.sets
  refl s := d.refl s.sets
  trans := d.trans
  mono := d.mono

/-- `f` acts on what the cells denote as a function that takes `m` to `m'`. -/
abbrev Does {α : Type} (d : Meaning ν) (held : Set (Tag × ν)) (m : Cell → ν)
    (out : α → Set (Tag × ν)) (m' : Cell → ν) (f : Engine α) : Prop :=
  d.view.Does held m out m' f

variable {held : Set (Tag × ν)} {m : Cell → ν} {row byte : ℕ} {addr : ADDRINT} {t : Tag} {v : ν}

theorem gprGet_does (h : InFile row byte) :
    d.Does held m (fun t => {(t, m (.reg row byte))}) m (gprGet row byte) := by
  intro s shows _
  refine ⟨s.gprFile row byte, s, if_pos h, shows, d.refl _, ?_⟩
  rintro p rfl
  exact shows.2 (.reg row byte)

theorem getb_does (h : addr ≤ lastAddress) :
    d.Does held m (fun t => {(t, m (.mem addr))}) m (getb addr) := by
  intro s shows _
  refine ⟨_, s, getb_of_le h s, shows, d.refl _, ?_⟩
  rintro p rfl
  exact shows.2 (.mem addr)

/-- One cell written. -/
theorem shows_write {s u : Shadow} {c : Cell} (shows : d.view.Shows s m) (ht : d.Denotes s.sets t v)
    (sets : u.sets = s.sets) (cells : ∀ b, u.cell b = if b = c then t else s.cell b) :
    d.view.Shows u (Function.update m c v) := by
  refine ⟨sets ▸ shows.1, fun b => ?_⟩
  rw [sets, cells, Function.update_apply]
  split_ifs
  · exact ht
  · exact shows.2 b

theorem gprSet_does (h : InFile row byte) (ht : (t, v) ∈ held) :
    d.Does held m (fun _ => ∅) (Function.update m (.reg row byte) v) (gprSet row byte t) := by
  intro s shows denotes
  obtain ⟨u, run⟩ : ∃ u, gprSet row byte t s = .ok (⟨⟩, u) := ⟨_, if_pos h⟩
  obtain ⟨sets, cells⟩ := Shadow.cell_gprSet run
  have le : d.Le s.sets u.sets := by rw [sets]; exact d.refl _
  exact ⟨⟨⟩, u, run, shows_write shows (denotes _ ht) sets cells, le, by simp⟩

theorem setb_does (h : addr ≤ lastAddress) (ht : (t, v) ∈ held) :
    d.Does held m (fun _ => ∅) (Function.update m (.mem addr) v) (setb addr t) := by
  intro s shows denotes
  have run : setb addr t s = .ok (⟨⟩, _) := rfl
  obtain ⟨sets, cells⟩ := Shadow.cell_setb run
  simp only [h, and_true] at cells
  exact ⟨⟨⟩, _, run, shows_write shows (denotes _ ht) sets cells, d.refl s.sets, by simp⟩

theorem combine_does {held : Set (Tag × Finset ℕ)} {m : Cell → Finset ℕ} {l r : Tag}
    {a b : Finset ℕ} (hl : (l, a) ∈ held) (hr : (r, b) ∈ held) :
    byLabels.Does held m (fun t => {(t, a ∪ b)}) m (combine l r) := by
  intro s shows denotes
  obtain ⟨⟨live, exact'⟩, cells⟩ := shows
  obtain ⟨kl, sl⟩ := denotes _ hl
  obtain ⟨kr, sr⟩ := denotes _ hr
  obtain ⟨t, tb, run, live', known⟩ := SetTable.tagCombine_live live kl kr
  have grows := SetTable.tagCombine_grows run
  have after : tb.gSets.length ≤ idSpace → tb.Exact ∧ tb.setOf t = a ∪ b := by
    intro room
    have before := grows.length_le.trans room
    obtain ⟨exact'', -, union⟩ := SetTable.tagCombine_exact (exact' before) kl kr run room
    exact ⟨exact'', by rw [union, sl before, sr before]⟩
  refine ⟨t, s.withSets tb, combine_run run, ⟨⟨live', fun room => (after room).1⟩, fun c => ?_⟩,
    grows, ?_⟩
  · rw [Shadow.cell_withSets]
    exact byLabels.mono grows (cells c)
  · rintro p rfl
    exact ⟨known, fun room => (after room).2⟩

/-- The empty tag is at hand everywhere. -/
theorem clearedVal_does {α : Type} {held : Set (Tag × Finset ℕ)} {m m' : Cell → Finset ℕ}
    {out : α → Set (Tag × Finset ℕ)} {f : Engine α}
    (h : byLabels.Does (held ∪ {(clearedVal, ∅)}) m out m' f) : byLabels.Does held m out m' f := by
  intro s shows denotes
  refine h s shows ?_
  rintro p (hp | rfl)
  · exact denotes p hp
  · exact ⟨shows.1.1.knows_clearedVal, fun _ => shows.1.1.setOf_clearedVal⟩

end Meaning

/-! ## Runs -/

/-- `t` follows `s`: it differs in the cells of `D` only, and its labels are those of `m`. -/
structure Shadow.Becomes (s t : Shadow) (D : Set Cell) (m : Cell → Finset ℕ) : Prop where
  sound : t.Sound
  le : Shadow.Le D s t
  labels : t.InIds → ∀ c, t.labelsOf c = m c

/-- The calls leave the table within its ids. -/
def RoomAfter (app : AppView) (limitOffset : INT32) (cs : List CleanCall) (s : Shadow) : Prop :=
  ∀ recs t, runCalls app limitOffset cs s = .ok (recs, t) → t.InIds

section Runs

variable {s t : Shadow} {f : Engine PUnit} {app : AppView} {limitOffset : INT32} {c : CleanCall}

theorem Shadow.Sound.becomes_self (sound : s.Sound) : s.Becomes s ∅ s.labelsOf :=
  ⟨sound, (Shadow.world ∅ Set.univ).refl s, fun _ _ => rfl⟩

theorem Shadow.Sound.shows_labelsOf (sound : s.Sound) : byLabels.view.Shows s s.labelsOf :=
  ⟨⟨sound.live, sound.exact⟩, fun c => ⟨sound.known c, fun _ => rfl⟩⟩

/-- An action has one outcome. -/
theorem exists_run_iff {α : Type} {g : Engine α} {r : α} {P : Shadow → Prop}
    (run : g s = .ok (r, t)) : (∃ r u, g s = .ok (r, u) ∧ P u) ↔ P t := by
  constructor
  · rintro ⟨r', u, run', h⟩
    cases run.symm.trans run'
    exact h
  · exact fun h => ⟨r, t, run, h⟩

theorem runCalls_silent (hc : c.run app limitOffset = CleanCall.silent f)
    (run : f s = .ok (⟨⟩, t)) : runCalls app limitOffset [c] s = .ok ([], t) := by
  have called : c.run app limitOffset s = .ok (none, t) := by
    rw [hc, CleanCall.silent, bind_of_ok run]
    rfl
  exact runCalls_singleton called

/-- What a call that unites leaves behind. -/
theorem runCalls_labels {m : Cell → Finset ℕ} (hc : c.run app limitOffset = CleanCall.silent f)
    (does : byLabels.Does ∅ s.labelsOf (fun _ => ∅) m f) (bounds : c.InBounds) (sound : s.Sound) :
    ∃ t, runCalls app limitOffset [c] s = .ok ([], t) ∧ s.Becomes t c.writes m := by
  obtain ⟨_, t, run, ⟨-, cells⟩, -⟩ := does s sound.shows_labelsOf (by simp)
  have run' := runCalls_silent hc run
  have flow : Flow c.writes Set.univ ∅ _ (fun _ => ∅) (runCalls app limitOffset [c]) :=
    runCalls_flow (by simpa using bounds) (by simp)
  obtain ⟨-, sound', -, le⟩ := flow.of_ok sound sound.within_univ run'
  exact ⟨t, run', sound', le, fun room c => (cells c).2 room⟩

/-- A run that leaves two sets in the table has not run out of ids. -/
theorem RoomAfter.of_two {cs : List CleanCall}
    (h : (runCalls app limitOffset cs s).toOption.map (fun r => r.2.sets.gSets.length) = some 2) :
    RoomAfter app limitOffset cs s := by
  intro recs t run
  rw [run] at h
  have length : t.sets.gSets.length = 2 := Option.some.inj h
  rw [Shadow.InIds, length]
  decide

/-- A call that returns has looked at user memory only. -/
theorem runCalls_reads {recs : List Record} (bounds : c.InBounds) (sound : s.Sound)
    (run : runCalls app limitOffset [c] s = .ok (recs, t)) :
    ∀ a ∈ c.reads app, a ≤ lastAddress := by
  have flow : Flow c.writes Set.univ ∅ _ (fun _ => ∅) (runCalls app limitOffset [c]) :=
    runCalls_flow (by simpa using bounds) (by simp)
  exact (flow.of_ok sound sound.within_univ run).1 c (List.mem_singleton.mpr rfl)

/-- What a call that copies leaves behind. -/
theorem runCalls_tags {m : Cell → Tag} (hc : c.run app limitOffset = CleanCall.silent f)
    (does : (byId s.sets).Does ∅ s.cell (fun _ => ∅) m f) :
    ∃ t, runCalls app limitOffset [c] s = .ok ([], t) ∧ t.sets = s.sets ∧ t.cell = m := by
  obtain ⟨_, t, run, ⟨sets, cells⟩, -⟩ := does s ⟨rfl, fun _ => rfl⟩ (by simp)
  exact ⟨t, runCalls_silent hc run, sets.symm, funext cells⟩

end Runs

/-! ## Cells in turn -/

/-- `d` gets what `c` holds. -/
def put {ν : Type} (d c : Cell) (m : Cell → ν) : Cell → ν := Function.update m d (m c)

/-- `d` gets the union of what the two hold. -/
def join (d c : Cell) (m : Cell → Finset ℕ) : Cell → Finset ℕ := Function.update m d (m d ∪ m c)

/-- `d` gets `v` as well. -/
def adjoin (d : Cell) (v : Finset ℕ) (m : Cell → Finset ℕ) : Cell → Finset ℕ :=
  Function.update m d (m d ∪ v)

section Local

variable {ν : Type} {d c : Cell}

/-- An update writes one cell, by the cells that its value depends on. -/
theorem localTo_update {R : Set Cell} {f : (Cell → ν) → ν}
    (reads : ∀ m m', (∀ b ∈ R, m' b = m b) → f m' = f m) :
    LocalTo {d} R fun m => Function.update m d (f m) where
  frame m b hb := Function.update_of_ne hb _ _
  reads m m' same b hb := by
    obtain rfl := hb
    simp only [Function.update_self, reads m m' same]

variable {n i : ℕ} {d c : ℕ → Cell} {m : Cell → ν} {b : Cell}

theorem updates_frame {f : ℕ → (Cell → ν) → ν} {R : ℕ → Set Cell}
    (reads : ∀ i m m', (∀ b ∈ R i, m' b = m b) → f i m' = f i m) (hb : ∀ i < n, b ≠ d i) :
    rounds (fun i m => Function.update m (d i) (f i m)) n m b = m b :=
  rounds_frame (fun i _ => localTo_update (reads i)) hb

/-- Writes to different cells, none of which is read later, act at once. -/
theorem updates_apply {f : ℕ → (Cell → ν) → ν} {R : ℕ → Set Cell}
    (reads : ∀ i m m', (∀ b ∈ R i, m' b = m b) → f i m' = f i m)
    (apart : ∀ i < n, ∀ j < i, d j ∉ R i ∧ d j ≠ d i) (hi : i < n) :
    rounds (fun i m => Function.update m (d i) (f i m)) n m (d i) = f i m := by
  refine (rounds_apply (fun i _ => localTo_update (reads i)) ?_ hi rfl).trans
    (Function.update_self _ _ _)
  rintro i hi j lt b rfl
  exact apart i hi j lt

theorem fills_apply {v : ν} (hi : i < n) :
    rounds (fun i m => Function.update m (d i) v) n m (d i) = v := by
  induction n with
  | zero => omega
  | succ n ih =>
    rw [rounds, Function.update_apply]
    split_ifs with same
    · rfl
    · refine ih ?_
      rcases Nat.lt_succ_iff_lt_or_eq.mp hi with lt | rfl
      · exact lt
      · exact absurd rfl same

theorem fills_frame {v : ν} (hb : ∀ i < n, b ≠ d i) :
    rounds (fun i m => Function.update m (d i) v) n m b = m b :=
  updates_frame (R := fun _ => ∅) (fun _ _ _ _ => rfl) hb

theorem puts_frame (hb : ∀ i < n, b ≠ d i) : rounds (fun i => put (d i) (c i)) n m b = m b :=
  updates_frame (R := fun i => {c i}) (fun i _ _ same => same (c i) rfl) hb

theorem puts_apply (apart : ∀ i < n, ∀ j < i, d j ≠ c i ∧ d j ≠ d i) (hi : i < n) :
    rounds (fun i => put (d i) (c i)) n m (d i) = m (c i) :=
  updates_apply (R := fun i => {c i}) (fun i _ _ same => same (c i) rfl) apart hi

end Local

section Joins

variable {n i : ℕ} {d c : ℕ → Cell} {m : Cell → Finset ℕ} {b : Cell}

theorem join_reads (i : ℕ) (m m' : Cell → Finset ℕ)
    (same : ∀ b ∈ ({d i, c i} : Set Cell), m' b = m b) :
    m' (d i) ∪ m' (c i) = m (d i) ∪ m (c i) := by
  rw [same (d i) (by simp), same (c i) (by simp)]

theorem joins_apply (apart : ∀ i < n, ∀ j < i, d j ≠ c i ∧ d j ≠ d i) (hi : i < n) :
    rounds (fun i => join (d i) (c i)) n m (d i) = m (d i) ∪ m (c i) := by
  refine updates_apply join_reads (fun i hi j lt => ⟨?_, (apart i hi j lt).2⟩) hi
  rintro (same | same)
  · exact (apart i hi j lt).2 same
  · exact (apart i hi j lt).1 same

end Joins

/-! ## Handlers -/

namespace Meaning

variable {ν : Type} {d : Meaning ν} {held : Set (Tag × ν)} {m : Cell → ν}
  {addr : ADDRINT} {row start dstRow dstStart srcRow srcStart n : ℕ}

theorem r2rXfer_does (hd : GprSpan dstRow dstStart n) (hs : GprSpan srcRow srcStart n) :
    d.Does held m (fun _ => ∅)
      (rounds (fun i => put (.reg dstRow (dstStart + i)) (.reg srcRow (srcStart + i))) n m)
      (r2rXfer dstRow dstStart srcRow srcStart n) := by
  refine View.Does.loop (fun i hi m => ?_) m
  exact (gprGet_does (hs.inFile hi)).bind fun _ =>
    gprSet_does (hd.inFile hi) (.inr rfl)

theorem movM2r_does (h : GprSpan row start n) (ha : InRange addr n) :
    d.Does held m (fun _ => ∅)
      (rounds (fun i => put (.reg row (start + i)) (.mem (byteAt addr i))) n m)
      (movM2r row start addr n) := by
  refine View.Does.loop (fun i hi m => ?_) m
  exact (getb_does (ha i hi)).bind fun _ =>
    gprSet_does (h.inFile hi) (.inr rfl)

theorem movR2m_does (h : GprSpan row start n) (ha : InRange addr n) :
    d.Does held m (fun _ => ∅)
      (rounds (fun i => put (.mem (byteAt addr i)) (.reg row (start + i))) n m)
      (movR2m addr row start n) := by
  refine View.Does.loop (fun i hi m => ?_) m
  exact (gprGet_does (h.inFile hi)).bind fun _ =>
    setb_does (ha i hi) (.inr rfl)

variable {held : Set (Tag × Finset ℕ)} {m : Cell → Finset ℕ}

theorem rClr_does (h : GprSpan row start n) :
    byLabels.Does held m (fun _ => ∅)
      (rounds (fun i m => Function.update m (.reg row (start + i)) ∅) n m) (rClr row start n) := by
  refine View.Does.loop (fun i hi m => ?_) m
  exact clearedVal_does (gprSet_does (h.inFile hi) (.inr rfl))

theorem gprUnite_does {byte : ℕ} {t : Tag} {v : Finset ℕ} (h : InFile row byte)
    (ht : (t, v) ∈ held) :
    byLabels.Does held m (fun _ => ∅) (adjoin (.reg row byte) v m) (gprUnite row byte t) :=
  (gprGet_does h).bind fun _ => (combine_does (.inr rfl) (.inl ht)).bind fun _ =>
    gprSet_does h (.inr rfl)

theorem binaryR2r_does (hd : GprSpan dstRow dstStart n) (hs : GprSpan srcRow srcStart n) :
    byLabels.Does held m (fun _ => ∅)
      (rounds (fun i => join (.reg dstRow (dstStart + i)) (.reg srcRow (srcStart + i))) n m)
      (binaryR2r dstRow dstStart srcRow srcStart n) := by
  refine View.Does.loop (fun i hi m => ?_) m
  exact (gprGet_does (hs.inFile hi)).bind fun _ =>
    gprUnite_does (hd.inFile hi) (.inr rfl)

theorem binaryM2r_does (h : GprSpan row start n) (ha : InRange addr n) :
    byLabels.Does held m (fun _ => ∅)
      (rounds (fun i => join (.reg row (start + i)) (.mem (byteAt addr i))) n m)
      (binaryM2r row start addr n) := by
  refine View.Does.loop (fun i hi m => ?_) m
  exact (getb_does (ha i hi)).bind fun _ =>
    gprUnite_does (h.inFile hi) (.inr rfl)

theorem binaryR2m_does (h : GprSpan row start n) (ha : InRange addr n) :
    byLabels.Does held m (fun _ => ∅)
      (rounds (fun i => join (.mem (byteAt addr i)) (.reg row (start + i))) n m)
      (binaryR2m addr row start n) := by
  refine View.Does.loop (fun i hi m => ?_) m
  exact (getb_does (ha i hi)).bind fun _ =>
    (gprGet_does (h.inFile hi)).bind fun _ =>
    (combine_does (.inl (.inr rfl)) (.inr rfl)).bind fun _ => setb_does (ha i hi) (.inr rfl)

end Meaning

end LibdftDr
