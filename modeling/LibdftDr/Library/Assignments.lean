import LibdftDr.Library.Views
import Mathlib.Data.List.Forall2
import Mathlib.Tactic.SplitIfs

/-!
# Simultaneous assignments

A loop that reads the places it also writes is a simultaneous assignment if what a round reads
has not been changed by an earlier round, or was only given its own value. An `Assignment` puts
the value of a formula in some places; `Store.assign` evaluates a list of them on the state
before and writes all of them after that.

`Assigns.bind` and `Assigns.loop` are the rules for programs; `Agree` makes the order of the
writes immaterial, so that `written_apply` can say what each place holds.
-/
namespace Library

universe u

/-- A formula over the places of a store. -/
inductive Formula (κ τ : Type u) where
  | place (c : κ)
  | const (v : τ)
  | op (l r : Formula κ τ)

namespace Formula

variable {κ τ ν : Type u}

/-- The places that the value depends on. -/
def reads : Formula κ τ → Set κ
  | place c => {c}
  | const _ => ∅
  | op l r => l.reads ∪ r.reads

def consts : Formula κ τ → Set τ
  | place _ => ∅
  | const v => {v}
  | op l r => l.consts ∪ r.consts

/-- The value, where places have values in `ν` and `join` is the operation there. -/
def denote (join : ν → ν → ν) (of : τ → ν) (w : κ → ν) : Formula κ τ → ν
  | place c => w c
  | const v => of v
  | op l r => join (l.denote join of w) (r.denote join of w)

/-- The operation on `e` and the first `n` of the places `c`, from the left. -/
def through (e : Formula κ τ) (c : ℕ → κ) : ℕ → Formula κ τ
  | 0 => e
  | n + 1 => op (e.through c n) (place (c n))

theorem consts_through {e : Formula κ τ} {c : ℕ → κ} {n : ℕ} :
    (e.through c n).consts = e.consts := by
  induction n with
  | zero => rfl
  | succ n ih => rw [through, consts, ih, consts, Set.union_empty]

end Formula

/-- All of `dsts` get the value of the formula. -/
structure Assignment (κ τ : Type u) where
  dsts : List κ
  value : Formula κ τ

/-- A state with readable and writable places, and an operation on values that leaves the
places alone. -/
structure Store (σ κ τ ε : Type u) where
  cells : σ → κ → τ
  set : (κ → τ) → σ → σ
  op : τ → τ → Action σ ε τ
  set_cells : ∀ s, set (cells s) s = s
  cells_set : ∀ m s, cells (set m s) = m
  set_set : ∀ m m' s, set m (set m' s) = set m s
  cells_op : ∀ {a b v s t}, op a b s = .ok (v, t) → cells t = cells s
  op_set : ∀ a b m s, op a b (set m s) = (op a b s).map fun r => (r.1, set m r.2)

namespace Store

variable {σ κ τ ε : Type u} (S : Store σ κ τ ε)

/-! ## Values -/

/-- The value of a formula on the places `m`. -/
def evalOn (m : κ → τ) : Formula κ τ → Action σ ε τ
  | .place c => pure (m c)
  | .const v => pure v
  | .op l r => do
    let a ← evalOn m l
    let b ← evalOn m r
    S.op a b

/-- The values of the formulas on the places `m`, in order. -/
def valuesOn (m : κ → τ) : List (Assignment κ τ) → Action σ ε (List τ)
  | [] => pure []
  | a :: as => do
    let v ← S.evalOn m a.value
    let vs ← valuesOn m as
    pure (v :: vs)

variable {S} {α β : Type u} {m m' : κ → τ} {s t : σ}

/-- An action that leaves the places alone and does not look at them. -/
structure Aside (S : Store σ κ τ ε) (f : Action σ ε α) : Prop where
  cells : ∀ {a s t}, f s = .ok (a, t) → S.cells t = S.cells s
  set : ∀ m s, f (S.set m s) = (f s).map fun r => (r.1, S.set m r.2)

namespace Aside

theorem pure (a : α) : S.Aside (Pure.pure a) where
  cells run := by cases run; rfl
  set _ _ := rfl

theorem op (a b : τ) : S.Aside (S.op a b) := ⟨S.cells_op, S.op_set a b⟩

theorem bind {f : Action σ ε α} {g : α → Action σ ε β} (hf : S.Aside f)
    (hg : ∀ a, S.Aside (g a)) : S.Aside (f >>= g) where
  cells run := by
    obtain ⟨a, t, first, rest⟩ := Action.bind_eq_ok.mp run
    exact ((hg a).cells rest).trans (hf.cells first)
  set m s := by
    cases first : f s with
    | error e =>
      have first' : f (S.set m s) = .error e := by rw [hf.set, first]; rfl
      rw [Action.bind_of_error first, Action.bind_of_error first']
      rfl
    | ok r =>
      have first' : f (S.set m s) = .ok (r.1, S.set m r.2) := by rw [hf.set, first]; rfl
      rw [Action.bind_of_ok first, Action.bind_of_ok first', (hg r.1).set]

theorem evalOn (m : κ → τ) (e : Formula κ τ) : S.Aside (S.evalOn m e) := by
  induction e with
  | place c => exact pure (m c)
  | const v => exact pure v
  | op l r hl hr => exact hl.bind fun a => hr.bind fun b => op a b

theorem valuesOn (m : κ → τ) (as : List (Assignment κ τ)) : S.Aside (S.valuesOn m as) := by
  induction as with
  | nil => exact pure []
  | cons a as ih => exact (evalOn m a.value).bind fun v => ih.bind fun vs => pure (v :: vs)

end Aside

/-- A formula looks at the places that it names. -/
theorem evalOn_congr {e : Formula κ τ} (same : ∀ c ∈ e.reads, m' c = m c) :
    S.evalOn m' e = S.evalOn m e := by
  induction e with
  | place c => rw [evalOn, evalOn, same c rfl]
  | const v => rfl
  | op l r hl hr =>
    have left := hl fun c hc => same c (.inl hc)
    have right := hr fun c hc => same c (.inr hc)
    rw [evalOn, evalOn, left, right]

theorem valuesOn_congr {as : List (Assignment κ τ)}
    (same : ∀ a ∈ as, ∀ c ∈ a.value.reads, m' c = m c) :
    S.valuesOn m' as = S.valuesOn m as := by
  induction as with
  | nil => rfl
  | cons a as ih =>
    have head := evalOn_congr (S := S) (same a List.mem_cons_self)
    have tail := ih fun b hb => same b (.tail a hb)
    rw [valuesOn, valuesOn, head, tail]

theorem valuesOn_append (g h : List (Assignment κ τ)) :
    S.valuesOn m (g ++ h) =
      S.valuesOn m g >>= fun vs => S.valuesOn m h >>= fun ws => pure (vs ++ ws) := by
  induction g with
  | nil => simp [valuesOn]
  | cons a g ih => simp [valuesOn, ih]

theorem length_of_valuesOn {as : List (Assignment κ τ)} {vs : List τ}
    (run : S.valuesOn m as s = .ok (vs, t)) : vs.length = as.length := by
  induction as generalizing vs s with
  | nil => cases run; rfl
  | cons a as ih =>
    obtain ⟨v, u, -, rest⟩ := Action.bind_eq_ok.mp run
    obtain ⟨ws, u', tail, last⟩ := Action.bind_eq_ok.mp rest
    cases last
    simp [ih tail]

variable (S) in
def get (c : κ) : Action σ ε τ := fun s => .ok (S.cells s c, s)

theorem get_bind (k : τ → Action σ ε α) : (S.get c >>= k) s = k (S.cells s c) s := rfl

/-- A fold that reads as it goes has read the state before. -/
theorem evalOn_through {e : Formula κ τ} {n : ℕ} (d : ℕ → κ) :
    S.evalOn (S.cells s) (e.through d n) s =
      (S.evalOn (S.cells s) e >>= Action.fold n fun i u => S.get (d i) >>= S.op u) s := by
  induction n with
  | zero =>
    change _ = (S.evalOn (S.cells s) e >>= pure) s
    rw [bind_pure]
    rfl
  | succ n ih =>
    change (S.evalOn (S.cells s) (e.through d n) >>= fun u => S.op u (S.cells s (d n))) s =
      (S.evalOn (S.cells s) e >>= fun u =>
        Action.fold n (fun i u => S.get (d i) >>= S.op u) u >>= fun u => S.get (d n) >>= S.op u) s
    rw [← bind_assoc]
    cases run : S.evalOn (S.cells s) (e.through d n) s with
    | error e' => rw [Action.bind_of_error run, Action.bind_of_error (ih.symm.trans run)]
    | ok r =>
      have kept : S.cells r.2 = S.cells s := (Aside.evalOn _ _).cells run
      rw [Action.bind_of_ok run, Action.bind_of_ok (ih.symm.trans run), get_bind, kept]

section Views

variable {μ ν : Type u} {V : View σ τ μ ν} {held : Set (τ × ν)} {x : μ} {join : ν → ν → ν}
  {of : τ → ν} {w : κ → ν}

/-- The operation is `join` on what the values denote. -/
abbrev OpDoes (S : Store σ κ τ ε) (V : View σ τ μ ν) (x : μ) (join : ν → ν → ν) : Prop :=
  ∀ held a b v w, (a, v) ∈ held → (b, w) ∈ held →
    V.Does held x (fun t => {(t, join v w)}) x (S.op a b)

theorem evalOn_does {e : Formula κ τ} (ops : S.OpDoes V x join)
    (places : ∀ c ∈ e.reads, (m c, w c) ∈ held) (consts : ∀ v ∈ e.consts, (v, of v) ∈ held) :
    V.Does held x (fun t => {(t, e.denote join of w)}) x (S.evalOn m e) := by
  induction e generalizing held with
  | place c =>
    refine View.Does.pure ?_
    rintro p rfl
    exact places c rfl
  | const v =>
    refine View.Does.pure ?_
    rintro p rfl
    exact consts v rfl
  | op l r hl hr =>
    refine (hl (fun c hc => places c (.inl hc)) fun v hv => consts v (.inl hv)).bind fun a => ?_
    refine (hr (fun c hc => .inl (places c (.inr hc)))
      fun v hv => .inl (consts v (.inr hv))).bind fun b => ?_
    exact ops _ a b _ _ (.inl (.inr rfl)) (.inr rfl)

/-- The formulas all return, with values that denote what they say. -/
theorem valuesOn_does {as : List (Assignment κ τ)} (ops : S.OpDoes V x join)
    (places : ∀ a ∈ as, ∀ c ∈ a.value.reads, (m c, w c) ∈ held)
    (consts : ∀ a ∈ as, ∀ v ∈ a.value.consts, (v, of v) ∈ held) :
    V.Does held x (fun vs => {p | ∃ a, (a, p.1) ∈ as.zip vs ∧ p.2 = a.value.denote join of w}) x
      (S.valuesOn m as) := by
  induction as generalizing held with
  | nil => exact View.Does.pure (by simp)
  | cons a as ih =>
    have first := evalOn_does ops (places a List.mem_cons_self) (consts a List.mem_cons_self)
    refine first.bind fun v => ?_
    refine (ih (fun b hb c hc => .inl (places b (.tail a hb) c hc))
      fun b hb u hu => .inl (consts b (.tail a hb) u hu)).bind fun vs => View.Does.pure ?_
    rintro p ⟨b, mem, value⟩
    rw [List.zip_cons_cons, List.mem_cons] at mem
    obtain same | mem := mem
    · obtain ⟨rfl, rfl⟩ := Prod.mk.inj same
      exact .inl (.inr (Prod.ext rfl value))
    · exact .inr ⟨b, mem, value⟩

end Views

/-! ## Order -/

/-- Two assignments to one place copy the same place. -/
def Agree (a b : Assignment κ τ) : Prop :=
  ∀ c ∈ a.dsts, c ∈ b.dsts → ∃ p, a.value = .place p ∧ b.value = .place p

/-- A list of assignments leaves alone what another reads, but for copies of a place to itself. -/
def Spares (g h : List (Assignment κ τ)) : Prop :=
  ∀ a ∈ g, ∀ b ∈ h, ∀ c ∈ b.value.reads, c ∈ a.dsts → a.value = .place c

/-- The later list may follow the earlier one. -/
structure Follows (g h : List (Assignment κ τ)) : Prop where
  spares : Spares g h
  agree : ∀ a ∈ g, ∀ b ∈ h, Agree a b

/-- One assignment may follow another if it neither reads nor writes what that one wrote. -/
theorem Follows.of_disjoint {a b : Assignment κ τ}
    (away : ∀ c ∈ a.dsts, c ∉ b.value.reads ∧ c ∉ b.dsts) : Follows [a] [b] := by
  constructor
  · intro a' ha b' hb c hc mem
    obtain rfl := List.mem_singleton.mp ha
    obtain rfl := List.mem_singleton.mp hb
    exact absurd hc (away c mem).1
  · intro a' ha b' hb c hc mem
    obtain rfl := List.mem_singleton.mp ha
    obtain rfl := List.mem_singleton.mp hb
    exact absurd mem (away c hc).2

/-- Rounds that write places of their own agree. -/
theorem pairwise_agree {n : ℕ} {g : ℕ → List (Assignment κ τ)} {lane : ℕ → Set κ}
    (within : ∀ i < n, (g i).Pairwise Agree)
    (apart : ∀ i < n, ∀ j < i, ∀ c ∈ lane j, c ∉ lane i)
    (dsts : ∀ i < n, ∀ a ∈ g i, ∀ c ∈ a.dsts, c ∈ lane i) :
    ((List.range n).flatMap g).Pairwise Agree := by
  refine List.pairwise_flatMap.mpr ⟨fun i hi => within i (List.mem_range.mp hi), ?_⟩
  refine List.pairwise_lt_range.imp_of_mem fun {j i} hj hi lt a ha b hb c hc mem => ?_
  have there := dsts j (List.mem_range.mp hj) a ha c hc
  have here := dsts i (List.mem_range.mp hi) b hb c mem
  exact absurd here (apart i (List.mem_range.mp hi) j lt c there)

/-! ## Writes -/

section Written

variable [DecidableEq κ]

/-- The places after the writes, in order. -/
def written : List (Assignment κ τ) → List τ → (κ → τ) → κ → τ
  | a :: as, v :: vs, m => written as vs fun c => if c ∈ a.dsts then v else m c
  | _, _, m => m

variable {as g h : List (Assignment κ τ)} {vs ws : List τ} {c p : κ}

theorem written_append (len : vs.length = g.length) (m : κ → τ) :
    written (g ++ h) (vs ++ ws) m = written h ws (written g vs m) := by
  induction g generalizing vs m with
  | nil => rw [List.length_eq_zero_iff.mp len]; rfl
  | cons a g ih =>
    cases vs with
    | nil => simp at len
    | cons v vs => exact ih (by simpa using len) _

theorem written_frame (hc : ∀ a ∈ as, c ∉ a.dsts) (m : κ → τ) : written as vs m c = m c := by
  induction as generalizing vs m with
  | nil => cases vs <;> rfl
  | cons a as ih =>
    cases vs with
    | nil => rfl
    | cons v vs =>
      refine (ih (fun b hb => hc b (.tail a hb)) _).trans ?_
      exact if_neg (hc a List.mem_cons_self)

/-- A place that is only ever given the value of `p`. -/
theorem written_place (run : S.valuesOn m as s = .ok (vs, t))
    (copies : ∀ a ∈ as, c ∈ a.dsts → a.value = .place p) (start : m' c = m p) :
    written as vs m' c = m p := by
  induction as generalizing vs s m' with
  | nil => cases run; exact start
  | cons a as ih =>
    obtain ⟨v, u, first, rest⟩ := Action.bind_eq_ok.mp run
    obtain ⟨ws, u', tail, last⟩ := Action.bind_eq_ok.mp rest
    cases last
    refine ih tail (fun b hb => copies b (.tail a hb)) ?_
    split_ifs with hc
    · rw [copies a List.mem_cons_self hc] at first
      cases first
      rfl
    · exact start

/-- Where the assignments agree, every place holds the value of its formula. -/
theorem written_apply (run : S.valuesOn m as s = .ok (vs, t)) (agree : as.Pairwise Agree)
    (m' : κ → τ) : List.Forall₂ (fun a v => ∀ c ∈ a.dsts, written as vs m' c = v) as vs := by
  induction as generalizing vs s m' with
  | nil => cases run; exact .nil
  | cons a as ih =>
    obtain ⟨v, u, first, rest⟩ := Action.bind_eq_ok.mp run
    obtain ⟨ws, u', tail, last⟩ := Action.bind_eq_ok.mp rest
    cases last
    obtain ⟨head, agree'⟩ := List.pairwise_cons.mp agree
    refine .cons (fun c hc => ?_) (ih tail agree' _)
    by_cases later : ∃ b ∈ as, c ∈ b.dsts
    · obtain ⟨b, hb, hcb⟩ := later
      obtain ⟨p, value, -⟩ := head b hb c hc hcb
      rw [value] at first
      cases first
      have copies : ∀ b ∈ as, c ∈ b.dsts → b.value = .place p := by
        intro b hb hcb
        obtain ⟨p', value', same⟩ := head b hb c hc hcb
        rw [value] at value'
        cases value'
        exact same
      change written as ws _ c = m p
      exact written_place tail copies (if_pos hc)
    · have none : ∀ b ∈ as, c ∉ b.dsts := fun b hb hcb => later ⟨b, hb, hcb⟩
      exact (written_frame none _).trans (if_pos hc)

/-! ## Assignments -/

variable (S)

/-- All formulas are evaluated on the places before, and then the values are written. -/
def assign (as : List (Assignment κ τ)) : Action σ ε PUnit := fun s =>
  (S.valuesOn (S.cells s) as s).map fun r => (⟨⟩, S.set (written as r.1 (S.cells s)) r.2)

variable {S}

theorem assign_of_ok (run : S.valuesOn (S.cells s) as s = .ok (vs, t)) :
    S.assign as s = .ok (⟨⟩, S.set (written as vs (S.cells s)) t) := by
  rw [assign, run]
  rfl

/-- One after the other is all at once, if the first spares the second. -/
theorem assign_bind (spares : Spares g h) :
    (S.assign g >>= fun _ => S.assign h) = S.assign (g ++ h) := by
  funext s
  cases first : S.valuesOn (S.cells s) g s with
  | error e =>
    have all : S.valuesOn (S.cells s) (g ++ h) s = .error e := by
      rw [valuesOn_append]
      exact Action.bind_of_error first
    have left : S.assign g s = .error e := by rw [assign, first]; rfl
    rw [Action.bind_of_error left, assign, all]
    rfl
  | ok r =>
    obtain ⟨vs, t⟩ := r
    have kept : ∀ b ∈ h, ∀ c ∈ b.value.reads,
        written g vs (S.cells s) c = S.cells s c := fun b hb c hc =>
      written_place first (fun a ha => spares a ha b hb c hc) rfl
    rw [Action.bind_of_ok (assign_of_ok first), assign, S.cells_set, valuesOn_congr kept,
      (Aside.valuesOn _ h).set, assign, valuesOn_append, Action.bind_of_ok first]
    cases second : S.valuesOn (S.cells s) h t with
    | error e =>
      rw [Action.bind_of_error second]
      rfl
    | ok r =>
      obtain ⟨ws, u⟩ := r
      have both : written h ws (written g vs (S.cells s)) =
          written (g ++ h) (vs ++ ws) (S.cells s) :=
        (written_append (length_of_valuesOn first) _).symm
      rw [Action.bind_of_ok second]
      change Except.ok (PUnit.unit, S.set (written h ws _) (S.set _ u)) = Except.ok _
      rw [S.set_set, both]

/-- `f` is a simultaneous assignment. -/
structure Assigns (S : Store σ κ τ ε) (as : List (Assignment κ τ)) (f : Action σ ε PUnit) :
    Prop where
  eq : f = S.assign as
  agree : as.Pairwise Agree

namespace Assigns

variable {f f' : Action σ ε PUnit} {n : ℕ}

theorem nil : S.Assigns [] (pure ⟨⟩) where
  eq := by
    funext s
    have none : S.valuesOn (S.cells s) [] s = .ok ([], s) := rfl
    rw [assign_of_ok none]
    simp only [written, S.set_cells]
    rfl
  agree := .nil

theorem bind (hf : S.Assigns g f) (hf' : S.Assigns h f') (follows : Follows g h) :
    S.Assigns (g ++ h) (do f; f') where
  eq := by rw [hf.eq, hf'.eq, ← assign_bind follows.spares]
  agree := List.pairwise_append.mpr ⟨hf.agree, hf'.agree, follows.agree⟩

/-- Rounds that follow each other are one assignment. -/
theorem loop {body : ℕ → Action σ ε PUnit} {g : ℕ → List (Assignment κ τ)}
    (step : ∀ i < n, S.Assigns (g i) (body i))
    (follows : ∀ i < n, ∀ j < i, Follows (g j) (g i)) :
    S.Assigns ((List.range n).flatMap g) (Action.loop n body) := by
  induction n with
  | zero => exact nil
  | succ n ih =>
    have before := ih (fun i hi => step i (by omega)) fun i hi => follows i (by omega)
    rw [List.range_succ, List.flatMap_append, List.flatMap_singleton]
    refine before.bind (step n (by omega)) ⟨?_, ?_⟩
    · intro a ha
      obtain ⟨j, hj, ha⟩ := List.mem_flatMap.mp ha
      exact (follows n (by omega) j (List.mem_range.mp hj)).spares a ha
    · intro a ha
      obtain ⟨j, hj, ha⟩ := List.mem_flatMap.mp ha
      exact (follows n (by omega) j (List.mem_range.mp hj)).agree a ha

end Assigns

/-- What an assignment leaves in the places, if its formulas return. -/
theorem Assigns.run {f : Action σ ε PUnit} (h : S.Assigns as f)
    (run : S.valuesOn (S.cells s) as s = .ok (vs, t)) :
    ∃ m, f s = .ok (⟨⟩, S.set m t) ∧ List.Forall₂ (fun a v => ∀ c ∈ a.dsts, m c = v) as vs ∧
      ∀ c, (∀ a ∈ as, c ∉ a.dsts) → m c = S.cells s c := by
  refine ⟨written as vs (S.cells s), ?_, written_apply run h.agree _, fun c hc => ?_⟩
  · rw [h.eq, assign_of_ok run]
  · exact written_frame hc _

theorem Assigns.single (a : Assignment κ τ) : S.Assigns [a] (S.assign [a]) :=
  ⟨rfl, List.pairwise_singleton _ _⟩

/-- Rounds with places of their own. -/
theorem Assigns.loop_lanes {body : ℕ → Action σ ε PUnit} {n : ℕ}
    {g : ℕ → List (Assignment κ τ)} {lane : ℕ → Set κ}
    (step : ∀ i < n, S.Assigns (g i) (body i))
    (apart : ∀ i < n, ∀ j < i, ∀ c ∈ lane j, c ∉ lane i)
    (dsts : ∀ i < n, ∀ a ∈ g i, ∀ c ∈ a.dsts, c ∈ lane i)
    (reads : ∀ i < n, ∀ a ∈ g i, ∀ c ∈ a.value.reads, c ∈ lane i) :
    S.Assigns ((List.range n).flatMap g) (Action.loop n body) := by
  refine Assigns.loop step fun i hi j hj => ?_
  have away : ∀ a ∈ g j, ∀ c ∈ a.dsts, c ∉ lane i := fun a ha c hc =>
    apart i hi j hj c (dsts j (by omega) a ha c hc)
  refine ⟨fun a ha b hb c hc mem => ?_, fun a ha b hb c hc mem => ?_⟩
  · exact absurd (reads i hi b hb c hc) (away a ha c mem)
  · exact absurd (dsts i hi b hb c mem) (away a ha c hc)

/-- Formulas that have the same values in `s`. -/
theorem assign_congr (same : List.Forall₂ (fun a b => a.dsts = b.dsts ∧
      S.evalOn (S.cells s) a.value = S.evalOn (S.cells s) b.value) g h) :
    S.assign g s = S.assign h s := by
  have values : S.valuesOn (S.cells s) g = S.valuesOn (S.cells s) h := by
    induction same with
    | nil => rfl
    | cons head _ ih => rw [valuesOn, valuesOn, head.2, ih]
  have writes : ∀ vs m, written g vs m = written h vs m := by
    clear values
    induction same with
    | nil => exact fun vs m => rfl
    | cons head _ ih =>
      intro vs m
      cases vs with
      | nil => rfl
      | cons v vs => rw [written, written, head.1, ih]
  simp only [assign, values, writes]

/-! ## Programs -/

variable (S)

/-- All of `dsts` get `v`. -/
def store (dsts : List κ) (v : τ) : Action σ ε PUnit := fun s =>
  .ok (⟨⟩, S.set (fun c => if c ∈ dsts then v else S.cells s c) s)

variable {S} {e : Formula κ τ} {n : ℕ}

/-- A single assignment evaluates its formula and stores the value. -/
theorem assign_singleton (dsts : List κ) :
    S.assign [⟨dsts, e⟩] s = (S.evalOn (S.cells s) e >>= S.store dsts) s := by
  cases run : S.evalOn (S.cells s) e s with
  | error e' =>
    have none : S.valuesOn (S.cells s) [⟨dsts, e⟩] s = .error e' := Action.bind_of_error run
    rw [Action.bind_of_error run, assign, none]
    rfl
  | ok r =>
    obtain ⟨v, t⟩ := r
    have one : S.valuesOn (S.cells s) [⟨dsts, e⟩] s = .ok ([v], t) := Action.bind_of_ok run
    have kept : S.cells t = S.cells s := (Aside.evalOn _ e).cells run
    rw [Action.bind_of_ok run, assign_of_ok one, store, kept]
    rfl

theorem store_append (xs ys : List κ) (v : τ) :
    (S.store xs v >>= fun _ => S.store ys v) = S.store (xs ++ ys) v := by
  funext s
  rw [Action.bind_of_ok rfl, store, store, S.set_set, S.cells_set]
  congr 3
  funext c
  simp only [List.mem_append]
  split_ifs <;> simp_all

theorem loop_store (d : ℕ → κ) (v : τ) :
    Action.loop n (fun i => S.store [d i] v) = S.store ((List.range n).map d) v := by
  induction n with
  | zero =>
    funext s
    simp only [List.range_zero, List.map_nil, store, List.not_mem_nil, if_false, S.set_cells]
    rfl
  | succ n ih =>
    rw [List.range_succ, List.map_append, ← store_append, ← ih]
    rfl

end Written

end Store

end Library
