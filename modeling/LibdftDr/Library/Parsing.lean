import Mathlib.Data.List.Infix

/-!
# Parsers that read encodings

A parser takes a value off the front of its input. `Reads p bs a` says that from `bs` it takes
`a`, whatever follows, and that it refuses every input that ends inside `bs`. The relation goes
through sequencing (`andThen`), so that a parser of several fields reads what an encoder has
appended field by field, and nothing that is cut off.
-/
namespace Library

variable {α β γ : Type*}

abbrev Parser (β α : Type*) := List β → Option (α × List β)

namespace Parser

/-- Takes nothing. -/
def done (a : α) : Parser β α := fun f => some (a, f)

def andThen (p : Parser β α) (k : α → Parser β γ) : Parser β γ := fun f =>
  (p f).bind fun x => k x.1 x.2

/-- Goes on only if the condition holds. -/
def check (c : Prop) [Decidable c] (p : Parser β α) : Parser β α := fun f =>
  (guard c : Option Unit).bind fun _ => p f

variable {p : Parser β α} {k : α → Parser β γ} {f rest : List β} {a : α} {c : γ}

theorem andThen_eq_some : p.andThen k f = some (c, rest) ↔
    ∃ a mid, p f = some (a, mid) ∧ k a mid = some (c, rest) := by
  simp [andThen, Option.bind_eq_some_iff]

theorem check_eq_some {cond : Prop} [Decidable cond] :
    p.check cond f = some (a, rest) ↔ cond ∧ p f = some (a, rest) := by
  unfold check guard
  by_cases h : cond
  · rw [if_pos h]
    exact (and_iff_right h).symm
  · rw [if_neg h]
    exact iff_of_false nofun fun both => h both.1

end Parser

structure Reads (p : Parser β α) (bs : List β) (a : α) : Prop where
  whole : ∀ rest, p (bs ++ rest) = some (a, rest)
  short : ∀ part, part <+: bs → part ≠ bs → p part = none

namespace Reads

variable {p : Parser β α} {k : α → Parser β γ} {bs cs : List β} {a : α} {c : γ}

theorem done (a : α) : Reads (Parser.done a) ([] : List β) a where
  whole _ := rfl
  short _ part ne := absurd (List.prefix_nil.mp part) ne

theorem andThen (first : Reads p bs a) (second : Reads (k a) cs c) :
    Reads (p.andThen k) (bs ++ cs) c where
  whole rest := by
    rw [List.append_assoc, Parser.andThen, first.whole]
    exact second.whole rest
  short part inside ne := by
    rw [Parser.andThen]
    by_cases cut : part.length < bs.length
    · -- the input ends inside the first field
      have inFirst := List.prefix_of_prefix_length_le inside (List.prefix_append bs cs) cut.le
      rw [first.short part inFirst fun h => cut.ne (congrArg _ h)]
      rfl
    · -- the first field is there, the second is cut off
      obtain ⟨part, rfl⟩ := List.prefix_of_prefix_length_le (List.prefix_append bs cs) inside
        (not_lt.mp cut)
      rw [first.whole]
      refine second.short part ((List.prefix_append_right_inj bs).mp inside) fun h => ne ?_
      rw [h]

theorem map (h : Reads p bs a) (g : α → γ) :
    Reads (fun f => (p f).map fun x => (g x.1, x.2)) bs (g a) where
  whole rest := by rw [h.whole]; rfl
  short part inside ne := by rw [h.short part inside ne]; rfl

theorem check {cond : Prop} [Decidable cond] (holds : cond) (h : Reads p bs a) :
    Reads (p.check cond) bs a where
  whole rest := Parser.check_eq_some.mpr ⟨holds, h.whole rest⟩
  short part inside ne := by
    rw [Parser.check, h.short part inside ne]
    exact Option.bind_fun_none _

end Reads

end Library
