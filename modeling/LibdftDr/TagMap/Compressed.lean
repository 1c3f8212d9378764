import LibdftDr.Library.Simulation
import LibdftDr.TagMap.Reached
import LibdftDr.TagMap.SetBits

/-!
# The set table on compressed bitmaps

`SetTable` has a finite set under each id; `g_sets` has a compressed bitmap, which a union may pad
where it lies. `BitmapTable.Represents` relates the two: same maps, and every bitmap denotes the
set of its id. Every operation keeps it and gives the same answers, so a client that goes through
the compressed tables cannot tell them from tables of sets.
-/
namespace LibdftDr
open Library

namespace Bitmap

/-- `operator<<`. -/
def print (b : Bitmap) : Text := '{' :: separated ',' (b.setBits.map decimal) ++ ['}']

/-- `ewah_sprint`. -/
def sprint (b : Bitmap) : Text := if b.numberOfOnes ≠ 0 then b.print else ['{', '}']

/-- The bitmap stands for the set. -/
def IsSet (b : Bitmap) (s : Ewah) : Prop := b.Denotes s.toFinset

namespace IsSet

variable {a b : Bitmap} {s t : Ewah}

theorem setBits_eq (h : b.IsSet s) : b.setBits = s.members := by
  obtain ⟨members, ascending⟩ := Denotes.setBits h
  refine ascending.eq_of_mem_iff s.ascending fun i => ?_
  rw [members, Ascending.mem_toFinset]

theorem numberOfOnes_eq (h : b.IsSet s) : b.numberOfOnes = s.numberOfOnes :=
  (Denotes.numberOfOnes h).trans (Ascending.card_toFinset s)

theorem sprint_eq (h : b.IsSet s) : b.sprint = ewahSprint s := by
  rw [sprint, ewahSprint, h.numberOfOnes_eq, print, Ewah.print, h.setBits_eq]

theorem new : Bitmap.new.IsSet Ascending.empty := new_denotes

theorem set (offset : UINT32) : (Bitmap.new.set offset.toNat).IsSet (Ewah.set offset) := by
  have one := set_denotes offset.toNat
  rwa [← Ascending.toFinset_singleton] at one

theorem logicalor (ha : a.IsSet s) (hb : b.IsSet t) : ∃ a' b' c,
    a.logicalor b = .ok (a', b', c) ∧ a'.IsSet s ∧ b'.IsSet t ∧ c.IsSet (s.logicalor t) := by
  obtain ⟨ha', hb', -⟩ := makeSameSize_denotes ha hb
  obtain ⟨c, run, union⟩ := Denotes.logicalor ha hb
  rw [← Ascending.toFinset_union] at union
  exact ⟨_, _, c, run, ha', hb', union⟩

end IsSet

end Bitmap

/-- The three tables, with the sets as `EWAHBoolArray`s. -/
structure BitmapTable where
  gSets : List Bitmap
  gIntern : Text → Option UINT32
  gCombine : UINT64 → Option UINT32

namespace BitmapTable

def tagmapAlloc : BitmapTable where
  gSets := [Bitmap.new]
  gIntern := Function.update (fun _ => none) Bitmap.new.sprint (some 0)
  gCombine := fun _ => none

def internSet (s : Bitmap) (tb : BitmapTable) : UINT32 × BitmapTable :=
  match tb.gIntern s.sprint with
  | some id => (id, tb)
  | none =>
    let id := BitVec.ofNat 32 tb.gSets.length
    (id, { tb with
      gSets := tb.gSets ++ [s]
      gIntern := Function.update tb.gIntern s.sprint (some id) })

/-- `dft_label::set`. -/
def tagSet (offset : UINT32) (tb : BitmapTable) : Tag × BitmapTable :=
  let (id, tb) := tb.internSet (Bitmap.new.set offset.toNat)
  (⟨id⟩, tb)

/-- What a miss of `g_combine` does: the union of two entries, which it leaves padded. -/
def unite (lhs rhs : Tag) (tb : BitmapTable) : Except Fault (UINT32 × BitmapTable) :=
  match tb.gSets[lhs.id.toNat]?, tb.gSets[rhs.id.toNat]? with
  | some a, some b => do
    let (a, b, r) ← a.logicalor b
    let tb := { tb with gSets := (tb.gSets.set lhs.id.toNat a).set rhs.id.toNat b }
    .ok (tb.internSet r)
  | _, _ => .error .outOfBounds

def tagCombine (lhs rhs : Tag) (tb : BitmapTable) : Except Fault (Tag × BitmapTable) :=
  if lhs.id = rhs.id then .ok (lhs, tb)
  else if lhs.id = 0 then .ok (rhs, tb)
  else if rhs.id = 0 then .ok (lhs, tb)
  else
    match tb.gCombine (combineKey lhs.id rhs.id) with
    | some id => .ok (⟨id⟩, tb)
    | none => do
      let (id, tb) ← tb.unite lhs rhs
      .ok (⟨id⟩, { tb with
        gCombine := Function.update
          (Function.update tb.gCombine (combineKey lhs.id rhs.id) (some id))
          (combineKey rhs.id lhs.id) (some id) })

/-- `dft_label::numberOfOnes`. -/
def numberOfOnes (t : Tag) (tb : BitmapTable) : UINT32 :=
  if t.id = 0 then 0
  else
    match tb.gSets[t.id.toNat]? with
    | none => 0
    | some s => BitVec.ofNat 32 s.numberOfOnes

def tagSprint (t : Tag) (tb : BitmapTable) : Text :=
  if t.id = 0 then ['{', '}']
  else
    match tb.gSets[t.id.toNat]? with
    | none => ['{', '}']
    | some s => s.sprint

/-- The loop over the iterator is that over its positions. -/
def tagWalk {υ : Type} (t : Tag) (tb : BitmapTable) (visit : UINT32 → υ → Bool × υ) (user : υ) :
    Bool × υ :=
  if t.id = 0 then (true, user)
  else
    match tb.gSets[t.id.toNat]? with
    | none => (true, user)
    | some s => tagWalk.go visit s.setBits user

/-! ## The tables represent tables of sets -/

structure Represents (tb : BitmapTable) (abs : SetTable) : Prop where
  sets : List.Forall₂ Bitmap.IsSet tb.gSets abs.gSets
  intern : tb.gIntern = abs.gIntern
  combine : tb.gCombine = abs.gCombine

/-- An answer and the tables after it. -/
def Same {α : Type} (r : α × BitmapTable) (r' : α × SetTable) : Prop :=
  r.1 = r'.1 ∧ r.2.Represents r'.2

theorem tagmapAlloc_represents : tagmapAlloc.Represents LibdftDr.tagmapAlloc where
  sets := .cons Bitmap.IsSet.new .nil
  intern := by rw [tagmapAlloc, Bitmap.IsSet.new.sprint_eq, LibdftDr.tagmapAlloc]
  combine := rfl

variable {tb : BitmapTable} {abs : SetTable}

namespace Represents

theorem entry (h : tb.Represents abs) (t : Tag) :
    Option.Rel Bitmap.IsSet tb.gSets[t.id.toNat]? abs.gSets[t.id.toNat]? :=
  forall₂_getElem? h.sets _

theorem internSet (h : tb.Represents abs) {b : Bitmap} {s : Ewah} (hb : b.IsSet s) :
    Same (tb.internSet b) (LibdftDr.internSet s abs) := by
  have length := h.sets.length_eq
  simp only [BitmapTable.internSet, LibdftDr.internSet, hb.sprint_eq, h.intern, length]
  cases abs.gIntern (ewahSprint s) with
  | some id => exact ⟨rfl, h⟩
  | none => exact ⟨rfl, List.rel_append h.sets (.cons hb .nil), rfl, h.combine⟩

theorem tagSet (h : tb.Represents abs) (offset : UINT32) :
    Same (tb.tagSet offset) (Tag.set offset abs) := by
  obtain ⟨id, rest⟩ := h.internSet (Bitmap.IsSet.set offset)
  exact ⟨congrArg Tag.mk id, rest⟩

/-- The bitmaps that a union was made of are written back. -/
theorem set (h : tb.Represents abs) {i : ℕ} {b : Bitmap} {s : Ewah} (at_i : abs.gSets[i]? = some s)
    (hb : b.IsSet s) : Represents { tb with gSets := tb.gSets.set i b } abs :=
  ⟨forall₂_set h.sets at_i hb, h.intern, h.combine⟩

/-- A result is remembered under both orders of its pair. -/
theorem remember (h : tb.Represents abs) (lhs rhs : Tag) (id : UINT32) :
    Represents
      { tb with
        gCombine := Function.update
          (Function.update tb.gCombine (combineKey lhs.id rhs.id) (some id))
          (combineKey rhs.id lhs.id) (some id) }
      { abs with
        gCombine := Function.update
          (Function.update abs.gCombine (combineKey lhs.id rhs.id) (some id))
          (combineKey rhs.id lhs.id) (some id) } :=
  ⟨h.sets, h.intern, by rw [h.combine]⟩

/-- The union of two stored bitmaps is interned as the union of their sets is. -/
theorem unite (h : tb.Represents abs) {lhs rhs : Tag} {s t : Ewah}
    (hs : abs.gSets[lhs.id.toNat]? = some s) (ht : abs.gSets[rhs.id.toNat]? = some t) :
    ∃ r, tb.unite lhs rhs = .ok r ∧ Same r (LibdftDr.internSet (s.logicalor t) abs) := by
  have left := h.entry lhs
  have right := h.entry rhs
  rw [hs] at left
  rw [ht] at right
  generalize hx : tb.gSets[lhs.id.toNat]? = x at left
  generalize hy : tb.gSets[rhs.id.toNat]? = y at right
  cases left with
  | some ha =>
    cases right with
    | some hb =>
      obtain ⟨a', b', c, run, ha', hb', hc⟩ := ha.logicalor hb
      have kept := (h.set hs ha').set ht hb'
      simp only [BitmapTable.unite, hx, hy, run]
      exact ⟨_, rfl, kept.internSet hc⟩

theorem unite_error (h : tb.Represents abs) {lhs rhs : Tag}
    (none : abs.gSets[lhs.id.toNat]? = none ∨ abs.gSets[rhs.id.toNat]? = none) :
    tb.unite lhs rhs = .error .outOfBounds := by
  have left := h.entry lhs
  have right := h.entry rhs
  unfold BitmapTable.unite
  rcases none with none | none
  · rw [none] at left
    generalize tb.gSets[lhs.id.toNat]? = x at left
    cases left
    rfl
  · rw [none] at right
    generalize tb.gSets[rhs.id.toNat]? = y at right
    cases right
    cases tb.gSets[lhs.id.toNat]? <;> rfl

theorem tagCombine (h : tb.Represents abs) (lhs rhs : Tag) :
    Matched Same (tb.tagCombine lhs rhs) (LibdftDr.tagCombine lhs rhs abs) := by
  unfold BitmapTable.tagCombine LibdftDr.tagCombine
  split_ifs
  · exact .ok ⟨rfl, h⟩
  · exact .ok ⟨rfl, h⟩
  · exact .ok ⟨rfl, h⟩
  · rw [h.combine]
    cases abs.gCombine (combineKey lhs.id rhs.id) with
    | some id => exact .ok ⟨rfl, h⟩
    | none =>
      cases hs : abs.gSets[lhs.id.toNat]? with
      | none =>
        simp only [h.unite_error (.inl hs)]
        exact .error _
      | some s =>
        cases ht : abs.gSets[rhs.id.toNat]? with
        | none =>
          simp only [h.unite_error (.inr ht)]
          exact .error _
        | some t =>
          obtain ⟨⟨id, tb'⟩, run, same, kept⟩ := h.unite hs ht
          simp only [run]
          obtain rfl : id = _ := same
          exact .ok ⟨rfl, kept.remember lhs rhs _⟩

/-- What is read of an entry does not depend on how it is stored. -/
theorem reads {α : Type} (h : tb.Represents abs) {t : Tag} {f : Bitmap → α} {g : Ewah → α}
    (same : ∀ b s, b.IsSet s → f b = g s) (other : α) :
    (match tb.gSets[t.id.toNat]? with
      | none => other
      | some b => f b) =
    match abs.gSets[t.id.toNat]? with
      | none => other
      | some s => g s := by
  have entry := h.entry t
  generalize tb.gSets[t.id.toNat]? = x at entry
  generalize abs.gSets[t.id.toNat]? = y at entry
  cases entry with
  | none => rfl
  | some denotes => exact same _ _ denotes

theorem numberOfOnes (h : tb.Represents abs) (t : Tag) :
    tb.numberOfOnes t = t.numberOfOnes abs := by
  unfold BitmapTable.numberOfOnes Tag.numberOfOnes
  split_ifs
  · rfl
  · exact h.reads (fun b s hb => by rw [hb.numberOfOnes_eq]) 0

theorem tagSprint (h : tb.Represents abs) (t : Tag) :
    tb.tagSprint t = LibdftDr.tagSprint t abs := by
  unfold BitmapTable.tagSprint LibdftDr.tagSprint
  split_ifs
  · rfl
  · exact h.reads (fun b s hb => hb.sprint_eq) _

theorem tagWalk {υ : Type} (h : tb.Represents abs) (t : Tag) (visit : UINT32 → υ → Bool × υ)
    (user : υ) : tb.tagWalk t visit user = LibdftDr.tagWalk t abs visit user := by
  unfold BitmapTable.tagWalk LibdftDr.tagWalk
  split_ifs
  · rfl
  · exact h.reads (fun b s hb => by rw [hb.setBits_eq]) _

end Represents

/-! ## Runs -/

/-- `tag_t::empty`, `numberOfOnes`, `to_string` and `enumerate`. -/
def read (t : Tag) (tb : BitmapTable) : Reading where
  empty := t.empty
  numberOfOnes := tb.numberOfOnes t
  toText := tb.tagSprint t
  labels := (tb.tagWalk t (fun label seen => (true, seen ++ [label])) []).2

theorem Represents.read (h : tb.Represents abs) (t : Tag) : tb.read t = t.read abs := by
  simp only [BitmapTable.read, Tag.read, h.numberOfOnes, h.tagSprint, h.tagWalk]

end BitmapTable

/-- A `Session` on the compressed tables. -/
structure BitmapSession where
  tables : BitmapTable
  handles : List Tag
  readings : List Reading

namespace BitmapSession

def handle (s : BitmapSession) (i : ℕ) : Tag := s.handles.getD i clearedVal

def start : BitmapSession := ⟨BitmapTable.tagmapAlloc, [], []⟩

def call (s : BitmapSession) : TagCall → Except Fault BitmapSession
  | .makeTag label =>
    let (t, tables) := s.tables.tagSet label
    .ok { s with tables := tables, handles := s.handles ++ [t] }
  | .combine a b => do
    let (t, tables) ← s.tables.tagCombine (s.handle a) (s.handle b)
    .ok { s with tables := tables, handles := s.handles ++ [t] }
  | .read a => .ok { s with readings := s.readings ++ [s.tables.read (s.handle a)] }

def run (calls : List TagCall) : Except Fault BitmapSession := calls.foldlM call start

/-- The client has been told the same, and the tables stand for the same sets. -/
structure Represents (s : BitmapSession) (abs : Session) : Prop where
  tables : s.tables.Represents abs.tables
  handles : s.handles = abs.handles
  readings : s.readings = abs.readings

variable {s : BitmapSession} {abs : Session}

theorem Represents.handle (h : s.Represents abs) (i : ℕ) : s.handle i = abs.handle i := by
  rw [BitmapSession.handle, h.handles, Session.handle]

/-- A returned handle. -/
theorem Represents.push (h : s.Represents abs) {r : Tag × BitmapTable} {r' : Tag × SetTable}
    (same : BitmapTable.Same r r') :
    Represents { s with tables := r.2, handles := s.handles ++ [r.1] }
      { abs with tables := r'.2, handles := abs.handles ++ [r'.1] } := by
  obtain ⟨tag, tables⟩ := same
  exact ⟨tables, by rw [h.handles, tag], h.readings⟩

theorem Represents.call (h : s.Represents abs) (c : TagCall) :
    Matched Represents (s.call c) (abs.call c) := by
  cases c with
  | makeTag label => exact .ok (h.push (h.tables.tagSet label))
  | combine a b =>
    simp only [BitmapSession.call, Session.call, h.handle]
    exact (h.tables.tagCombine _ _).bind fun _ _ same => .ok (h.push same)
  | read a =>
    refine .ok ⟨h.tables, h.handles, ?_⟩
    simp only [h.readings, h.handle, h.tables.read]

theorem start_represents : start.Represents Session.start :=
  ⟨BitmapTable.tagmapAlloc_represents, rfl, rfl⟩

end BitmapSession

/-- No call of a client faults on the plain tables. -/
theorem Session.Reached.call_ok {s : Session} (h : s.Reached) (c : TagCall) :
    ∃ s', s.call c = .ok s' := by
  cases c with
  | makeTag label => exact ⟨_, rfl⟩
  | combine a b =>
    obtain ⟨t, tables, combined, -, -⟩ :=
      SetTable.tagCombine_live h.1.rooted.1 (h.knows a) (h.knows b)
    simp only [Session.call, combined]
    exact ⟨_, rfl⟩
  | read a => exact ⟨_, rfl⟩

namespace BitmapSession

variable {s : BitmapSession} {abs : Session}

theorem Represents.run (h : s.Represents abs) (reached : abs.Reached) (calls : List TagCall) :
    ∃ s' abs', calls.foldlM BitmapSession.call s = .ok s' ∧
      calls.foldlM Session.call abs = .ok abs' ∧ s'.Represents abs' := by
  induction calls generalizing s abs with
  | nil => exact ⟨s, abs, rfl, rfl, h⟩
  | cons c calls ih =>
    obtain ⟨abs', one⟩ := reached.call_ok c
    obtain ⟨s', same, h'⟩ := (one ▸ h.call c).exists_ok
    rw [List.foldlM_cons, List.foldlM_cons, one, same]
    exact ih h' (reached.call one)

/-- On compressed bitmaps, which every union may pad where they are stored, a client is given the
handles, the texts, the counts and the labels that it would be given on plain sets, whatever it
calls and in any order; no call faults, and every stored bitmap denotes the set of its id. -/
theorem run_represents (calls : List TagCall) :
    ∃ s abs, run calls = .ok s ∧ Session.run calls = .ok abs ∧ s.handles = abs.handles ∧
      s.readings = abs.readings ∧ s.tables.gIntern = abs.tables.gIntern ∧
      s.tables.gCombine = abs.tables.gCombine ∧
      List.Forall₂ (fun b u => b.Denotes u.toFinset) s.tables.gSets abs.tables.gSets := by
  obtain ⟨s, abs, run, run', h⟩ :=
    start_represents.run ⟨.alloc, by simp [Session.start]⟩ calls
  exact ⟨s, abs, run, run', h.handles, h.readings, h.tables.intern, h.tables.combine,
    h.tables.sets⟩

end BitmapSession

end LibdftDr
