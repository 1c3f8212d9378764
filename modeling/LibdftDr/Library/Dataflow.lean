import LibdftDr.Library.Views
import Mathlib.Data.Finset.Lattice.Union
import Mathlib.Order.Hom.BoundedLattice

/-!
# Plans of moves

A `Move` gives a place the join of some sources: places, as they were, and inputs. The moves of
a block read before any of them writes, and a `Plan` is a list of blocks. It can be evaluated in
any join-semilattice with a bottom, and homomorphisms carry one evaluation to another
(`map_eval`). In the free semilattice it says which sources a place gets its value from, and
that determines all evaluations: `eval_eq_sup`.

Plans that do not touch each other's places commute (`Independent.comm`).
-/
namespace Library

variable {κ κ' ι ν ν' : Type*}

/-- `dst` gets the join of `srcs`. -/
structure Move (κ ι : Type*) where
  dst : κ
  srcs : List (κ ⊕ ι)

abbrev Block (κ ι : Type*) := List (Move κ ι)

abbrev Plan (κ ι : Type*) := List (Block κ ι)

namespace Block

def dsts (b : Block κ ι) : Set κ := {c | ∃ mv ∈ b, mv.dst = c}

/-- The places that a block reads. -/
def uses (b : Block κ ι) : Set κ := {c | ∃ mv ∈ b, .inl c ∈ mv.srcs}

end Block

namespace Plan

def dsts (p : Plan κ ι) : Set κ := {c | ∃ b ∈ p, c ∈ Block.dsts b}

def uses (p : Plan κ ι) : Set κ := {c | ∃ b ∈ p, c ∈ Block.uses b}

/-- Neither plan writes a place that the other one reads or writes. -/
structure Independent (p q : Plan κ ι) : Prop where
  left : ∀ c ∈ p.dsts, c ∉ q.dsts ∧ c ∉ q.uses
  right : ∀ c ∈ q.dsts, c ∉ p.dsts ∧ c ∉ p.uses

theorem Independent.symm {p q : Plan κ ι} (h : Independent p q) : Independent q p :=
  ⟨h.right, h.left⟩

end Plan

variable [SemilatticeSup ν] [OrderBot ν] [SemilatticeSup ν'] [OrderBot ν'] {inp inp' : ι → ν}
  {m m' w w' : κ → ν} {c : κ}

/-! ## Values -/

/-- The join of sources, for places that hold `m` and inputs of the values `inp`. -/
def joinOf (inp : ι → ν) (m : κ → ν) (srcs : List (κ ⊕ ι)) : ν :=
  srcs.foldr (fun x v => Sum.elim m inp x ⊔ v) ⊥

theorem joinOf_congr {srcs : List (κ ⊕ ι)} (same : ∀ c, .inl c ∈ srcs → m' c = m c) :
    joinOf inp m' srcs = joinOf inp m srcs := by
  induction srcs with
  | nil => rfl
  | cons x xs ih =>
    have tail := ih fun c hc => same c (.tail x hc)
    cases x with
    | inl c => exact congrArg₂ (· ⊔ ·) (same c (.head _)) tail
    | inr i => exact congrArg (inp _ ⊔ ·) tail

theorem map_joinOf (φ : SupBotHom ν ν') (srcs : List (κ ⊕ ι)) :
    φ (joinOf inp m srcs) = joinOf (φ ∘ inp) (φ ∘ m) srcs := by
  induction srcs with
  | nil => exact map_bot φ
  | cons x xs ih =>
    refine (map_sup φ _ _).trans ?_
    rw [← joinOf, ih]
    cases x <;> rfl

@[simp] theorem joinOf_nil : joinOf inp m [] = ⊥ := rfl

@[simp] theorem joinOf_inl (srcs : List (κ ⊕ ι)) :
    joinOf inp m (.inl c :: srcs) = m c ⊔ joinOf inp m srcs := rfl

@[simp] theorem joinOf_inr (i : ι) (srcs : List (κ ⊕ ι)) :
    joinOf inp m (.inr i :: srcs) = inp i ⊔ joinOf inp m srcs := rfl

theorem joinOf_append (xs ys : List (κ ⊕ ι)) :
    joinOf inp m (xs ++ ys) = joinOf inp m xs ⊔ joinOf inp m ys := by
  induction xs with
  | nil => simp
  | cons x xs ih => cases x <;> simp [ih, sup_assoc]

section Eval

variable [DecidableEq κ] {b : Block κ ι} {p q : Plan κ ι}

namespace Block

/-- The moves of a block, which read `m`. A later move to the same place prevails. -/
def write (inp : ι → ν) (m : κ → ν) (b : Block κ ι) (w : κ → ν) : κ → ν :=
  b.foldl (fun w mv => Function.update w mv.dst (joinOf inp m mv.srcs)) w

def eval (inp : ι → ν) (b : Block κ ι) (m : κ → ν) : κ → ν := b.write inp m m

end Block

namespace Plan

def eval (inp : ι → ν) (p : Plan κ ι) (m : κ → ν) : κ → ν := p.foldl (fun m b => b.eval inp m) m

/-- Where the value of a place comes from. -/
def sources [DecidableEq ι] (p : Plan κ ι) : κ → Finset (κ ⊕ ι) :=
  p.eval (fun i => {.inr i}) fun c => {.inl c}

end Plan

/-! ## Blocks -/

namespace Block

@[simp] theorem write_nil : write inp m [] w = w := rfl

@[simp] theorem write_cons (mv : Move κ ι) :
    write inp m (mv :: b) w = write inp m b (Function.update w mv.dst (joinOf inp m mv.srcs)) := rfl

theorem write_append {b' : Block κ ι} :
    write inp m (b ++ b') w = write inp m b' (write inp m b w) := List.foldl_append

@[simp] theorem eval_nil : eval inp [] m = m := rfl

@[simp] theorem eval_singleton (mv : Move κ ι) :
    eval inp [mv] m = Function.update m mv.dst (joinOf inp m mv.srcs) := rfl

theorem map_write (φ : SupBotHom ν ν') :
    φ ∘ write inp m b w = write (φ ∘ inp) (φ ∘ m) b (φ ∘ w) := by
  induction b generalizing w with
  | nil => rfl
  | cons mv b ih => rw [write_cons, write_cons, ih, Function.comp_update, map_joinOf]

theorem write_of_not_mem (hc : c ∉ dsts b) : write inp m b w c = w c := by
  induction b generalizing w with
  | nil => rfl
  | cons mv b ih =>
    have ne : c ≠ mv.dst := fun e => hc ⟨mv, .head _, e.symm⟩
    rw [write_cons, ih fun ⟨x, hx, e⟩ => hc ⟨x, .tail _ hx, e⟩, Function.update_of_ne ne]

/-- What a block leaves in a place depends on what it reads, and on the place itself. -/
theorem write_congr (reads : ∀ c ∈ uses b, m' c = m c) (here : c ∉ dsts b → w' c = w c) :
    write inp m' b w' c = write inp m b w c := by
  induction b generalizing w w' with
  | nil => exact here fun ⟨x, hx, _⟩ => absurd hx List.not_mem_nil
  | cons mv b ih =>
    have value : joinOf inp m' mv.srcs = joinOf inp m mv.srcs :=
      joinOf_congr fun c hc => reads c ⟨mv, .head _, hc⟩
    rw [write_cons, write_cons, value]
    refine ih (fun c ⟨x, hx, hc⟩ => reads c ⟨x, .tail _ hx, hc⟩) fun out => ?_
    simp only [Function.update_apply]
    split_ifs with e
    · rfl
    · refine here fun ⟨x, hx, e'⟩ => ?_
      rcases List.mem_cons.mp hx with rfl | hx
      · exact e e'.symm
      · exact out ⟨x, hx, e'⟩

theorem write_eq_bot (empty : ∀ mv ∈ b, mv.srcs = []) (hc : c ∈ dsts b) :
    write inp m b w c = ⊥ := by
  induction b generalizing w with
  | nil => exact absurd hc fun ⟨_, h, _⟩ => List.not_mem_nil h
  | cons mv b ih =>
    rw [write_cons, empty mv (.head _)]
    by_cases later : c ∈ dsts b
    · exact ih (fun x hx => empty x (.tail _ hx)) later
    · obtain ⟨x, hx, rfl⟩ := hc
      rcases List.mem_cons.mp hx with rfl | hx
      · rw [write_of_not_mem later, Function.update_self, joinOf_nil]
      · exact absurd ⟨x, hx, rfl⟩ later

end Block

/-! ## Plans -/

namespace Plan

@[simp] theorem eval_nil : eval inp [] m = m := rfl

@[simp] theorem eval_cons : eval inp (b :: p) m = eval inp p (b.eval inp m) := rfl

theorem eval_append : eval inp (p ++ q) m = eval inp q (eval inp p m) := List.foldl_append

@[simp] theorem eval_singleton : eval inp [b] m = b.eval inp m := rfl

/-- The blocks of a loop. -/
theorem eval_range (body : ℕ → Block κ ι) (n : ℕ) :
    eval inp ((List.range n).map body) m = rounds (fun i => (body i).eval inp) n m := by
  induction n with
  | zero => rfl
  | succ n ih => rw [List.range_succ, List.map_append, eval_append, ih]; rfl

theorem map_eval (φ : SupBotHom ν ν') : φ ∘ p.eval inp m = p.eval (φ ∘ inp) (φ ∘ m) := by
  induction p generalizing m with
  | nil => rfl
  | cons b p ih => rw [eval_cons, eval_cons, ih, Block.eval, Block.map_write]; rfl

theorem eval_of_not_mem (hc : c ∉ p.dsts) : p.eval inp m c = m c := by
  induction p generalizing m with
  | nil => rfl
  | cons b p ih =>
    rw [eval_cons, ih fun ⟨x, hx, h⟩ => hc ⟨x, .tail _ hx, h⟩]
    exact Block.write_of_not_mem fun h => hc ⟨b, .head _, h⟩

/-- A plan of moves without sources. -/
theorem eval_eq_bot (empty : ∀ b ∈ p, ∀ mv ∈ b, mv.srcs = []) (hc : c ∈ p.dsts) :
    p.eval inp m c = ⊥ := by
  induction p generalizing m with
  | nil => exact absurd hc fun ⟨_, h, _⟩ => List.not_mem_nil h
  | cons b p ih =>
    by_cases later : c ∈ dsts p
    · exact ih (fun x hx => empty x (.tail _ hx)) later
    · rw [eval_cons, eval_of_not_mem later]
      obtain ⟨x, hx, here⟩ := hc
      rcases List.mem_cons.mp hx with rfl | hx
      · exact Block.write_eq_bot (empty x (.head _)) here
      · exact absurd ⟨x, hx, here⟩ later

/-- From states that agree on what the plan reads, it leaves the same in what it writes, and in
every other place where they agree. -/
theorem eval_congr (reads : ∀ c ∈ p.uses, m' c = m c) (here : c ∉ p.dsts → m' c = m c) :
    p.eval inp m' c = p.eval inp m c := by
  induction p generalizing m m' with
  | nil => exact here fun ⟨x, hx, _⟩ => absurd hx List.not_mem_nil
  | cons b p ih =>
    have first : ∀ c ∈ Block.uses b, m' c = m c := fun c hc => reads c ⟨b, .head _, hc⟩
    refine ih (fun c hc => ?_) fun out => ?_
    · exact Block.write_congr first fun _ => reads c (hc.imp fun x h => ⟨.tail _ h.1, h.2⟩)
    · refine Block.write_congr first fun out' => here fun ⟨x, hx, h⟩ => ?_
      rcases List.mem_cons.mp hx with rfl | hx
      · exact out' h
      · exact out ⟨x, hx, h⟩

/-! ## Where values come from -/

section Sources

variable [DecidableEq ι]

/-- A map of generators extends to finite sets of them. -/
def supHom (f : κ ⊕ ι → ν) : SupBotHom (Finset (κ ⊕ ι)) ν where
  toFun s := s.sup f
  map_sup' _ _ := Finset.sup_union
  map_bot' := Finset.sup_empty

/-- Whatever the values are, a place gets the join of its sources. -/
theorem eval_eq_sup : p.eval inp m c = (p.sources c).sup (Sum.elim m inp) := by
  have places : supHom (Sum.elim m inp) ∘ (fun c => {.inl c}) = m :=
    funext fun _ => Finset.sup_singleton
  have inputs : supHom (Sum.elim m inp) ∘ (fun i => {.inr i}) = inp :=
    funext fun _ => Finset.sup_singleton
  have extended : supHom (Sum.elim m inp) ∘ p.sources = p.eval _ _ := map_eval _
  rw [places, inputs] at extended
  exact (congrFun extended c).symm

end Sources

/-! ## Independence -/

theorem Independent.comm (h : Independent p q) (m : κ → ν) :
    q.eval inp (p.eval inp m) = p.eval inp (q.eval inp m) := by
  have half : ∀ {p q : Plan κ ι}, Independent p q → ∀ c ∈ p.dsts,
      q.eval inp (p.eval inp m) c = p.eval inp (q.eval inp m) c := by
    intro p q h c hc
    rw [eval_of_not_mem (h.left c hc).1]
    exact (eval_congr (fun d hd => eval_of_not_mem fun out => (h.right d out).2 hd)
      fun out => absurd hc out).symm
  funext c
  by_cases hp : c ∈ p.dsts
  · exact half h c hp
  by_cases hq : c ∈ q.dsts
  · exact (half h.symm c hq).symm
  · simp only [eval_of_not_mem hp, eval_of_not_mem hq]

end Plan

/-! ## Other names for the places -/

section Rename

variable [DecidableEq κ'] {f : κ → κ'} {n z : κ' → ν} {d : κ'}

def Move.rename (f : κ → κ') (mv : Move κ ι) : Move κ' ι := ⟨f mv.dst, mv.srcs.map (Sum.map f id)⟩

def Plan.rename (f : κ → κ') (p : Plan κ ι) : Plan κ' ι := p.map (List.map (Move.rename f))

omit [DecidableEq κ] [DecidableEq κ'] in
theorem joinOf_rename (srcs : List (κ ⊕ ι)) :
    joinOf inp n (srcs.map (Sum.map f id)) = joinOf inp (n ∘ f) srcs := by
  induction srcs with
  | nil => rfl
  | cons x xs ih =>
    cases x with
    | inl c => exact congrArg (n (f c) ⊔ ·) ih
    | inr i => exact congrArg (inp i ⊔ ·) ih

theorem Block.write_rename (inj : Function.Injective f) :
    write inp n (b.map (Move.rename f)) z ∘ f = write inp (n ∘ f) b (z ∘ f) := by
  induction b generalizing z with
  | nil => rfl
  | cons mv b ih =>
    have head : Function.update z (f mv.dst) (joinOf inp n (mv.srcs.map (Sum.map f id))) ∘ f =
        Function.update (z ∘ f) mv.dst (joinOf inp (n ∘ f) mv.srcs) := by
      rw [Function.update_comp_eq_of_injective _ inj, joinOf_rename]
    rw [List.map_cons, write_cons, write_cons, ih]
    exact congrArg (write inp (n ∘ f) b) head

namespace Plan

/-- Under other names a plan does what it does. -/
theorem eval_rename (inj : Function.Injective f) :
    (p.rename f).eval inp n ∘ f = p.eval inp (n ∘ f) := by
  induction p generalizing n with
  | nil => rfl
  | cons b p ih =>
    have first : Block.eval inp (b.map (Move.rename f)) n ∘ f = b.eval inp (n ∘ f) :=
      Block.write_rename inj
    exact (ih (n := Block.eval inp (b.map (Move.rename f)) n)).trans (congrArg (eval inp p) first)

omit [DecidableEq κ] [DecidableEq κ'] in
theorem mem_dsts_rename : d ∈ (p.rename f).dsts ↔ ∃ c ∈ p.dsts, f c = d := by
  simp only [dsts, Block.dsts, rename, Set.mem_ofPred_eq, List.mem_map]
  constructor
  · rintro ⟨_, ⟨b, hb, rfl⟩, _, renamed, rfl⟩
    obtain ⟨mv, hmv, rfl⟩ := List.mem_map.mp renamed
    exact ⟨_, ⟨b, hb, mv, hmv, rfl⟩, rfl⟩
  · rintro ⟨c, ⟨b, hb, mv, hmv, rfl⟩, rfl⟩
    exact ⟨_, ⟨b, hb, rfl⟩, _, List.mem_map.mpr ⟨mv, hmv, rfl⟩, rfl⟩

omit [DecidableEq κ] [DecidableEq κ'] in
theorem mem_uses_rename : d ∈ (p.rename f).uses ↔ ∃ c ∈ p.uses, f c = d := by
  simp only [uses, Block.uses, rename, Set.mem_ofPred_eq, List.mem_map]
  constructor
  · rintro ⟨_, ⟨b, hb, rfl⟩, _, renamed, hd⟩
    obtain ⟨mv, hmv, rfl⟩ := List.mem_map.mp renamed
    obtain ⟨x, hx, e⟩ := List.mem_map.mp hd
    cases x with
    | inl c => exact ⟨c, ⟨b, hb, mv, hmv, hx⟩, Sum.inl.inj e⟩
    | inr i => cases e
  · rintro ⟨c, ⟨b, hb, mv, hmv, hc⟩, rfl⟩
    exact ⟨_, ⟨b, hb, rfl⟩, _, List.mem_map.mpr ⟨mv, hmv, rfl⟩, List.mem_map.mpr ⟨_, hc, rfl⟩⟩

end Plan

end Rename

end Eval

end Library
