import LibdftDr.Library.Relational
import LibdftDr.Core.Handlers

/-!
# States that agree

Two shadow states agree off a set of cells if they have the same tables and the same tags in
all other cells. An access respects the agreement as long as it does not read one of these
cells; it may write them. A property of states ignores the cells of a set if it survives any writes
there; an access keeps it as long as it writes nowhere else.
-/
namespace LibdftDr
open Library Library.Action

structure Shadow.AgreeOff (X : Set Cell) (s t : Shadow) : Prop where
  sets : t.sets = s.sets
  cells : ∀ c ∉ X, t.cell c = s.cell c

theorem Shadow.AgreeOff.mono {X Y : Set Cell} {s t : Shadow} (h : Shadow.AgreeOff X s t)
    (sub : X ⊆ Y) : Shadow.AgreeOff Y s t :=
  ⟨h.sets, fun c hc => h.cells c fun hX => hc (sub hX)⟩

section Rules

variable {X : Set Cell} {s t : Shadow}

/-- The same tag written to the same place in both states. -/
theorem Shadow.AgreeOff.write {s' t' : Shadow} {w : Cell → Prop} [DecidablePred w] {v : Tag}
    (h : Shadow.AgreeOff X s t)
    (hs : s'.sets = s.sets ∧ ∀ c, s'.cell c = if w c then v else s.cell c)
    (ht : t'.sets = t.sets ∧ ∀ c, t'.cell c = if w c then v else t.cell c) :
    Shadow.AgreeOff X s' t' := by
  refine ⟨by rw [hs.1, ht.1, h.sets], fun c hc => ?_⟩
  rw [hs.2, ht.2, h.cells c hc]

theorem gprGet_respects {row byte : ℕ} (hX : Cell.reg row byte ∉ X) :
    Respects (Shadow.AgreeOff X) (gprGet row byte) := by
  intro s t h
  have same : t.gprFile row byte = s.gprFile row byte := h.cells _ hX
  unfold gprGet
  split_ifs
  · rw [same]
    exact .ok h
  · exact .error _

theorem gprSet_respects (row byte : ℕ) (v : Tag) :
    Respects (Shadow.AgreeOff X) (gprSet row byte v) := by
  intro s t h
  by_cases inFile : InFile row byte
  · obtain ⟨s', hs⟩ : ∃ s', gprSet row byte v s = .ok (⟨⟩, s') := ⟨_, if_pos inFile⟩
    obtain ⟨t', ht⟩ : ∃ t', gprSet row byte v t = .ok (⟨⟩, t') := ⟨_, if_pos inFile⟩
    rw [hs, ht]
    exact .ok (h.write (Shadow.cell_gprSet hs) (Shadow.cell_gprSet ht))
  · rw [gprSet, gprSet, if_neg inFile, if_neg inFile]
    exact .error _

theorem getb_respects {addr : ADDRINT} (hX : Cell.mem addr ∉ X) :
    Respects (Shadow.AgreeOff X) (getb addr) := by
  intro s t h
  have same : t.tagDir.tagAt addr = s.tagDir.tagAt addr := h.cells _ hX
  unfold getb
  by_cases inRange : addr ≤ lastAddress
  · rw [TagDir.getb_of_le _ inRange, TagDir.getb_of_le _ inRange, same]
    exact .ok h
  · rw [TagDir.getb_of_not_le _ inRange, TagDir.getb_of_not_le _ inRange]
    exact .error _

theorem setb_respects (addr : ADDRINT) (v : Tag) :
    Respects (Shadow.AgreeOff X) (setb addr v) := by
  intro s t h
  have hs : setb addr v s = .ok (⟨⟩, _) := rfl
  have ht : setb addr v t = .ok (⟨⟩, _) := rfl
  rw [hs, ht]
  exact .ok (h.write (Shadow.cell_setb hs) (Shadow.cell_setb ht))

theorem combine_respects (l r : Tag) : Respects (Shadow.AgreeOff X) (combine l r) := by
  intro s t h
  unfold combine
  rw [h.sets]
  cases tagCombine l r s.sets with
  | error e => exact .error e
  | ok p =>
    refine .ok ⟨rfl, fun c hc => ?_⟩
    rw [Shadow.cell_withSets, Shadow.cell_withSets, h.cells c hc]

theorem unite_respects {n : ℕ} {src : ℕ → Engine Tag}
    (hs : ∀ i < n, Respects (Shadow.AgreeOff X) (src i)) (u : Tag) :
    Respects (Shadow.AgreeOff X) (unite n src u) :=
  Respects.fold (fun i hi v => (hs i hi).bind fun t => combine_respects v t) u

end Rules

/-! ## Properties that survive writes -/

/-- `P` still holds with other tables, other tags in the cells of `D`, and no tags in cells
of `C`. -/
def Shadow.Ignores (D C : Set Cell) (P : Shadow → Prop) : Prop :=
  ∀ s t, (∀ c, t.cell c = s.cell c ∨ c ∈ D ∨ c ∈ C ∧ t.cell c = clearedVal) → P s → P t

section Keeps

variable {D C : Set Cell} {P : Shadow → Prop} {row b : ℕ} {t : Tag}

theorem gprSet_keeps (h : Shadow.Ignores D C P)
    (hD : Cell.reg row b ∈ D ∨ Cell.reg row b ∈ C ∧ t = clearedVal) :
    (gprSet row b t).Keeps P := by
  intro s u s' hs run
  refine h s s' (fun c => ?_) hs
  rw [(Shadow.cell_gprSet run).2]
  split_ifs with same
  · exact .inr (same ▸ hD)
  · exact .inl rfl

theorem gprGet_keeps : (gprGet row b).Keeps P := by
  intro s t s' hs run
  unfold gprGet at run
  split_ifs at run
  cases run
  exact hs

theorem getb_keeps (addr : ADDRINT) : (getb addr).Keeps P := by
  intro s t s' hs run
  unfold getb at run
  split at run
  · cases run
    exact hs
  · cases run

theorem setb_keeps (h : Shadow.Ignores D C P) {addr : ADDRINT} (hD : Cell.mem addr ∈ D) :
    (setb addr t).Keeps P := by
  intro s u s' hs run
  refine h s s' (fun c => ?_) hs
  rw [(Shadow.cell_setb run).2]
  split_ifs with same
  · exact .inr (.inl (same.1 ▸ hD))
  · exact .inl rfl

theorem combine_keeps (h : Shadow.Ignores D C P) (l r : Tag) : (combine l r).Keeps P := by
  intro s t s' hs run
  unfold combine at run
  split at run
  · cases run
    exact h s _ (fun c => .inl (Shadow.cell_withSets ..)) hs
  · cases run

theorem unite_keeps (h : Shadow.Ignores D C P) {n : ℕ} {src : ℕ → Engine Tag}
    (hs : ∀ i, (src i).Keeps P) (u : Tag) : (unite n src u).Keeps P :=
  Keeps.fold (fun i _ u => (hs i).bind fun t => combine_keeps h u t) u

end Keeps

end LibdftDr
