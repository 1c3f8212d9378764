import Mathlib.Data.List.Induction
import Mathlib.Data.List.Nodup

/-!
# Registries where the first entry wins

Entries arrive one after another, and one whose key is taken already is dropped. What is kept
is a sublist of what arrived with every key once, and looking a key up finds the same entry
among the kept ones as among all (`find?_firsts`).
-/
namespace Library

variable {α κ : Type*} [DecidableEq κ] (key : α → κ)

/-- Append an entry unless its key is taken. -/
def keepFirst (kept : List α) (a : α) : List α :=
  if key a ∈ kept.map key then kept else kept ++ [a]

/-- The entries of `as` that are the first with their key. -/
def firsts (as : List α) : List α := as.foldl (keepFirst key) []

variable {key} {kept as : List α} {a : α} {k : κ}

theorem firsts_concat (as : List α) (a : α) :
    firsts key (as ++ [a]) = keepFirst key (firsts key as) a := by
  simp [firsts]

theorem keepFirst_taken (h : key a ∈ kept.map key) : keepFirst key kept a = kept := if_pos h

theorem keepFirst_fresh (h : key a ∉ kept.map key) : keepFirst key kept a = kept ++ [a] :=
  if_neg h

theorem nodup_keepFirst (h : (kept.map key).Nodup) : ((keepFirst key kept a).map key).Nodup := by
  by_cases taken : key a ∈ kept.map key
  · rwa [keepFirst_taken taken]
  · rw [keepFirst_fresh taken, List.map_append, List.map_singleton, ← List.concat_eq_append]
    exact h.concat taken

theorem nodup_firsts (as : List α) : ((firsts key as).map key).Nodup := by
  induction as using List.reverseRecOn with
  | nil => exact List.nodup_nil
  | append_singleton as a ih =>
    rw [firsts_concat]
    exact nodup_keepFirst ih

theorem firsts_sublist (as : List α) : (firsts key as).Sublist as := by
  induction as using List.reverseRecOn with
  | nil => exact List.Sublist.refl []
  | append_singleton as a ih =>
    rw [firsts_concat, keepFirst]
    split_ifs
    · exact ih.trans (List.sublist_append_left as [a])
    · exact ih.append_right [a]

/-- An entry that is dropped is not the one a lookup finds. -/
theorem find?_keepFirst (kept : List α) (a : α) (k : κ) :
    (keepFirst key kept a).find? (fun e => decide (key e = k)) =
      (kept ++ [a]).find? fun e => decide (key e = k) := by
  by_cases taken : key a ∈ kept.map key
  · rw [keepFirst_taken taken, List.find?_append]
    obtain ⟨b, hb, same⟩ := List.mem_map.mp taken
    by_cases asked : key a = k
    · have found : (kept.find? fun e => decide (key e = k)).isSome :=
        List.find?_isSome.mpr ⟨b, hb, by simp [same, asked]⟩
      rw [Option.or_of_isSome found]
    · simp [asked]
  · rw [keepFirst_fresh taken]

/-- A lookup among the first entries finds what a lookup among all of them does. -/
theorem find?_firsts (as : List α) (k : κ) :
    (firsts key as).find? (fun e => decide (key e = k)) =
      as.find? fun e => decide (key e = k) := by
  induction as using List.reverseRecOn with
  | nil => rfl
  | append_singleton as a ih =>
    rw [firsts_concat, find?_keepFirst, List.find?_append, List.find?_append, ih]

/-- The kept entries are the ones that a lookup of their own key finds. -/
theorem find?_of_mem_firsts (h : a ∈ firsts key as) :
    as.find? (fun e => decide (key e = key a)) = some a := by
  rw [← find?_firsts]
  obtain ⟨b, found⟩ := Option.isSome_iff_exists.mp
    (List.find?_isSome (p := fun e => decide (key e = key a)) |>.mpr ⟨a, h, by simp⟩)
  have same : key b = key a := by simpa using List.find?_some found
  have nodup : ((firsts key as).map key).Nodup := nodup_firsts as
  rw [found, List.inj_on_of_nodup_map nodup (List.mem_of_find?_eq_some found) h same]

end Library
