import LibdftDr.TagMap.Exact

/-!
# Runs of the tag interface

A client holds handles and builds new ones from them. `Run` replays a sequence of calls on
the tables; `plainRun` replays it on plain finite sets. Handles are named by their position
among those returned, and a position past the end is the default handle.
-/
namespace LibdftDr
open Library

/-- What the read-only calls report about one handle. -/
structure Reading where
  empty : Bool
  numberOfOnes : UINT32
  toText : Text
  labels : List UINT32

/-- `tag_t::empty`. -/
def Tag.empty (t : Tag) : Bool := t.id == 0

/-- `tag_t::empty`, `dft_label::numberOfOnes`, `to_string` and `enumerate` with a visitor
that never stops. -/
def Tag.read (t : Tag) (tb : SetTable) : Reading where
  empty := t.empty
  numberOfOnes := t.numberOfOnes tb
  toText := tagSprint t tb
  labels := (tagWalk t tb (fun label seen => (true, seen ++ [label])) []).2

inductive TagCall where
  | makeTag (label : UINT32)
  | combine (a b : ℕ)
  | read (a : ℕ)

/-- The tables together with what a client has been given so far. -/
structure Session where
  tables : SetTable
  handles : List Tag
  readings : List Reading

namespace Session

def handle (s : Session) (i : ℕ) : Tag := s.handles.getD i clearedVal

/-- `tagmap_alloc()`, before any call. -/
def start : Session := ⟨tagmapAlloc, [], []⟩

def call (s : Session) : TagCall → Except Fault Session
  | .makeTag label =>
    let (t, tables) := Tag.set label s.tables
    .ok { s with tables := tables, handles := s.handles ++ [t] }
  | .combine a b => do
    let (t, tables) ← tagCombine (s.handle a) (s.handle b) s.tables
    .ok { s with tables := tables, handles := s.handles ++ [t] }
  | .read a => .ok { s with readings := s.readings ++ [(s.handle a).read s.tables] }

def run (calls : List TagCall) : Except Fault Session := calls.foldlM call start

end Session

/-- The sets the handles stand for, with no tables. -/
def plainCall (sets : List (Finset ℕ)) : TagCall → List (Finset ℕ)
  | .makeTag label => sets ++ [{label.toNat}]
  | .combine a b => sets ++ [sets.getD a ∅ ∪ sets.getD b ∅]
  | .read _ => sets

def plainRun (calls : List TagCall) : List (Finset ℕ) := calls.foldl plainCall []

theorem plainCall_grows (sets : List (Finset ℕ)) (c : TagCall) : sets <+: plainCall sets c := by
  cases c with
  | makeTag label => exact List.prefix_append _ _
  | combine a b => exact List.prefix_append _ _
  | read a => exact List.prefix_rfl

theorem foldl_plainCall_grows (calls : List TagCall) (sets : List (Finset ℕ)) :
    sets <+: calls.foldl plainCall sets := by
  induction calls generalizing sets with
  | nil => exact List.prefix_rfl
  | cons c calls ih => exact (plainCall_grows sets c).trans (ih _)

/-- Lists related entry by entry are related at every position, past the end by default. -/
theorem forall₂_getD {α β : Type*} {R : α → β → Prop} {xs : List α} {ys : List β} {x : α} {y : β}
    (h : List.Forall₂ R xs ys) (default : R x y) (i : ℕ) : R (xs.getD i x) (ys.getD i y) := by
  induction h generalizing i with
  | nil => exact default
  | cons head _ ih =>
    cases i with
    | zero => exact head
    | succ i => exact ih i

namespace Session

/-- The session has given out exactly the sets of the plain run. -/
structure Tracks (s : Session) (sets : List (Finset ℕ)) : Prop where
  exact : s.tables.Exact
  held : List.Forall₂ (fun t u => s.tables.Knows t ∧ s.tables.setOf t = u) s.handles sets
  stored : s.tables.stored = insert ∅ sets.toFinset

theorem start_tracks : start.Tracks [] where
  exact := SetTable.tagmapAlloc_exact
  held := .nil
  stored := rfl

variable {s : Session} {sets : List (Finset ℕ)}

theorem Tracks.handle (h : s.Tracks sets) (i : ℕ) :
    s.tables.Knows (s.handle i) ∧ s.tables.setOf (s.handle i) = sets.getD i ∅ :=
  forall₂_getD h.held ⟨h.exact.live.knows_clearedVal, h.exact.setOf_clearedVal⟩ i

/-- A returned handle extends the session, once its tables are known to be exact. -/
theorem Tracks.push (h : s.Tracks sets) {tables : SetTable} {t : Tag} {u : Finset ℕ}
    (grow : s.tables.Grows tables) (exact' : tables.Exact) (known : tables.Knows t)
    (set : tables.setOf t = u) (stored' : tables.stored = insert u s.tables.stored) :
    Tracks { s with tables := tables, handles := s.handles ++ [t] } (sets ++ [u]) where
  exact := exact'
  held := by
    refine List.rel_append (h.held.imp fun x v hx => ?_) (.cons ⟨known, set⟩ .nil)
    exact ⟨grow.knows hx.1, (grow.setOf hx.1).trans hx.2⟩
  stored := by
    rw [stored', h.stored, List.toFinset_append, Finset.insert_comm]
    congr 1
    ext v; simp

theorem Tracks.call (h : s.Tracks sets) (c : TagCall)
    (few : (insert ∅ (plainCall sets c).toFinset).card ≤ idSpace) :
    ∃ s', s.call c = .ok s' ∧ s'.Tracks (plainCall sets c) := by
  -- the sets that get an id are those of the plain run, so the tables have room for them
  have room : ∀ (tb : SetTable) (u : Finset ℕ), tb.stored = insert u s.tables.stored →
      plainCall sets c = sets ++ [u] → tb.stored.card ≤ idSpace := by
    intro tb u hu hc
    rw [hc] at few
    refine le_of_eq_of_le (congrArg _ ?_) few
    rw [hu, h.stored, Finset.insert_comm]
    congr 1
    ext v; simp
  cases c with
  | makeTag label =>
    obtain ⟨stored', length'⟩ := SetTable.internSet_stored h.exact (Ewah.set label)
    rw [show (Ewah.set label).toFinset = {label.toNat} by simp [Ewah.set]] at stored'
    obtain ⟨exact', set'⟩ := SetTable.tagSet_exact h.exact label
      (length'.trans_le (room _ _ stored' rfl))
    exact ⟨_, rfl, h.push (SetTable.tagSet_grows label _) exact'
      (SetTable.tagSet_live h.exact.live label).2 set' stored'⟩
  | combine a b =>
    obtain ⟨ka, sa⟩ := h.handle a
    obtain ⟨kb, sb⟩ := h.handle b
    obtain ⟨t, tables, run, -, -⟩ := SetTable.tagCombine_live h.exact.live ka kb
    obtain ⟨stored', length'⟩ := SetTable.tagCombine_stored h.exact ka kb run
    rw [sa, sb] at stored'
    obtain ⟨exact', known', set'⟩ := SetTable.tagCombine_exact h.exact ka kb run
      (length'.trans_le (room _ _ stored' rfl))
    rw [sa, sb] at set'
    refine ⟨_, ?_, h.push (SetTable.tagCombine_grows run) exact' known' set' stored'⟩
    simp only [Session.call, run]
    rfl
  | read a => exact ⟨_, rfl, h.exact, h.held, h.stored⟩

theorem Tracks.run (h : s.Tracks sets) (calls : List TagCall)
    (few : (insert ∅ (calls.foldl plainCall sets).toFinset).card ≤ idSpace) :
    ∃ s', calls.foldlM Session.call s = .ok s' ∧ s'.Tracks (calls.foldl plainCall sets) := by
  induction calls generalizing s sets with
  | nil => exact ⟨s, rfl, h⟩
  | cons c calls ih =>
    have early : (plainCall sets c).toFinset ⊆
        (calls.foldl plainCall (plainCall sets c)).toFinset :=
      fun u hu => by
        simp only [List.mem_toFinset] at hu ⊢
        exact (foldl_plainCall_grows calls _).subset hu
    obtain ⟨s₁, one, h₁⟩ := h.call c
      ((Finset.card_le_card (Finset.insert_subset_insert ∅ early)).trans few)
    obtain ⟨s₂, rest, h₂⟩ := ih h₁ few
    refine ⟨s₂, ?_, h₂⟩
    rw [List.foldlM_cons, one]
    exact rest

end Session

/-- Handles are plain sets: in every run that builds fewer than `2 ^ 32` distinct sets, each
handle indexes its set, equality and emptiness of handles are those of their sets, and
every remembered combination is a union, under both orders of its pair. -/
theorem handles_denote_sets (calls : List TagCall)
    (few : (plainRun calls).toFinset.card < 2 ^ 32) :
    ∃ s, Session.run calls = .ok s ∧ s.handles.length = (plainRun calls).length ∧
      (∀ i, (s.tables.gSets[(s.handle i).id.toNat]?).map Ascending.toFinset =
        some ((plainRun calls).getD i ∅)) ∧
      (∀ i j, s.handle i = s.handle j ↔ (plainRun calls).getD i ∅ = (plainRun calls).getD j ∅) ∧
      (∀ i, (s.handle i).empty = true ↔ (plainRun calls).getD i ∅ = ∅) ∧
      (∀ m c, s.tables.gCombine m = some c → ∃ a b u v w, m = combineKey a b ∧
        s.tables.gSets[a.toNat]? = some u ∧ s.tables.gSets[b.toNat]? = some v ∧
        s.tables.gSets[c.toNat]? = some w ∧ w.toFinset = u.toFinset ∪ v.toFinset ∧
        s.tables.gCombine (combineKey b a) = some c) := by
  have room : (insert ∅ (plainRun calls).toFinset).card ≤ idSpace := by
    have := Finset.card_insert_le ∅ (plainRun calls).toFinset
    unfold idSpace
    omega
  obtain ⟨s, run, h⟩ := Session.start_tracks.run calls room
  refine ⟨s, run, h.held.length_eq, fun i => ?_, fun i j => ?_, fun i => ?_, fun m c hm => ?_⟩
  · obtain ⟨known, set⟩ := h.handle i
    obtain ⟨e, he⟩ := SetTable.knows_iff.mp known
    rw [he, Option.map_some, ← SetTable.setOf_eq he, set]
    rfl
  · rw [h.exact.eq_iff_setOf_eq (h.handle i).1 (h.handle j).1, (h.handle i).2, (h.handle j).2]
    rfl
  · have := h.exact.live.tagCount_iff (h.handle i).1
    rw [(h.handle i).2, tagCount] at this
    unfold Tag.empty
    change _ ↔ (calls.foldl plainCall []).getD i ∅ = ∅
    grind
  · obtain ⟨a, b, u, v, rfl, ha, hb, hc⟩ := h.exact.memoized m c hm
    exact ⟨a, b, u, v, _, rfl, ha, hb, hc, Ascending.toFinset_union u v,
      (h.exact.mirrored b a).trans hm⟩

/-- The unit test's T1 to T3: two labels, combined both ways and again. -/
theorem handles_denote_sets_synthetic :
    (plainRun [.makeTag 42, .makeTag 7, .combine 0 1, .combine 1 0, .combine 2 3]).toFinset.card
      < 2 ^ 32 ∧
    ∃ s, Session.run [.makeTag 42, .makeTag 7, .combine 0 1, .combine 1 0, .combine 2 3] = .ok s ∧
      s.handle 2 = s.handle 3 ∧ s.handle 4 = s.handle 2 ∧ s.handle 0 ≠ s.handle 1 := by
  have few : (plainRun [.makeTag 42, .makeTag 7, .combine 0 1, .combine 1 0,
      .combine 2 3]).toFinset.card < 2 ^ 32 := by decide
  obtain ⟨s, run, -, -, eq, -⟩ := handles_denote_sets _ few
  refine ⟨few, s, run, (eq 2 3).mpr (by decide), (eq 4 2).mpr (by decide), fun h => ?_⟩
  exact absurd ((eq 0 1).mp h) (by decide)

end LibdftDr
