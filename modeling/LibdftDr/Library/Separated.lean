import Mathlib.Data.List.Basic

/-!
# Numerals and separated lists as text

Text is a list of characters. Numerals determine their number, a nonempty list of fields
written with a separator that no field contains determines the fields, and the separators in
it number one less than the fields. `readHex` and `readDecimals` read numbers back.
-/
namespace Library

/-- Decimal digits of a number, without a sign. -/
def decimal (n : ℕ) : List Char := Nat.toDigits 10 n

theorem isDigit_of_mem_decimal {c : Char} {n : ℕ} (h : c ∈ decimal n) : c.isDigit :=
  Nat.isDigit_of_mem_toDigits (by decide) (by decide) h

theorem not_mem_decimal {c : Char} (hc : c.isDigit = false) (n : ℕ) : c ∉ decimal n := by
  intro h
  simp [isDigit_of_mem_decimal h] at hc

theorem decimal_ne_nil (n : ℕ) : decimal n ≠ [] := Nat.toDigits_ne_nil

/-- Fields one after the other with `sep` between neighbours. -/
def separated (sep : Char) : List (List Char) → List Char
  | [] => []
  | [f] => f
  | f :: g :: fs => f ++ sep :: separated sep (g :: fs)

theorem separated_eq_intercalate (sep : Char) (fields : List (List Char)) :
    separated sep fields = [sep].intercalate fields := by
  induction fields with
  | nil => rfl
  | cons f fs ih =>
    cases fs with
    | nil => simp [separated]
    | cons g gs => simp [separated, ih, List.intercalate_cons_cons]

/-- What a separated text is made of. -/
theorem mem_separated {sep c : Char} {fields : List (List Char)} (h : c ∈ separated sep fields) :
    c = sep ∨ ∃ f ∈ fields, c ∈ f := by
  rw [separated_eq_intercalate] at h
  induction fields with
  | nil => simp at h
  | cons f fs ih =>
    cases fs with
    | nil => exact .inr ⟨f, by simpa using h⟩
    | cons g gs =>
      rw [List.intercalate_cons_cons, List.append_assoc, List.mem_append, List.mem_append] at h
      obtain front | middle | back := h
      · exact .inr ⟨f, List.mem_cons_self, front⟩
      · exact .inl (List.mem_singleton.mp middle)
      · obtain eq | ⟨x, hx, hc⟩ := ih back
        · exact .inl eq
        · exact .inr ⟨x, List.mem_cons_of_mem f hx, hc⟩

theorem splitOn_separated {sep : Char} {fields : List (List Char)}
    (free : ∀ f ∈ fields, sep ∉ f) (ne : fields ≠ []) :
    (separated sep fields).splitOn sep = fields := by
  rw [separated_eq_intercalate]
  exact List.splitOn_intercalate sep free ne

/-- Between `k + 1` fields that avoid the separator there are `k` separators. -/
theorem count_separated {sep : Char} {fields : List (List Char)}
    (free : ∀ f ∈ fields, sep ∉ f) :
    (separated sep fields).count sep = fields.length - 1 := by
  induction fields with
  | nil => rfl
  | cons f fs ih =>
    have hf : f.count sep = 0 := List.count_eq_zero.mpr (free f (by simp))
    cases fs with
    | nil => simpa [separated] using hf
    | cons g gs =>
      have rest := ih fun x hx => free x (List.mem_cons_of_mem f hx)
      simp only [separated, List.count_append, List.count_cons_self, hf, rest]
      simp

/-! ## Reading numbers back -/

/-- The value of a hexadecimal digit in lower case. -/
def hexValue (c : Char) : ℕ :=
  if c.isDigit then c.toNat - '0'.toNat else c.toNat - 'a'.toNat + 10

/-- The number that hexadecimal digits stand for. -/
def readHex (digits : List Char) : ℕ := digits.foldl (fun n c => 16 * n + hexValue c) 0

theorem hexValue_digitChar {d : ℕ} (h : d < 16) : hexValue d.digitChar = d := by
  have all : ∀ d < 16, hexValue d.digitChar = d := by decide
  exact all d h

/-- A numeral consists of digits. -/
theorem exists_digit_of_mem_toDigits {b n : ℕ} {c : Char} (hb : 1 < b)
    (h : c ∈ Nat.toDigits b n) : ∃ d < b, c = d.digitChar := by
  induction n using Nat.strongRecOn with
  | ind n ih =>
    rw [Nat.toDigits_eq_if hb] at h
    split_ifs at h with small
    · exact ⟨n, small, List.mem_singleton.mp h⟩
    · obtain front | last := List.mem_append.mp h
      · exact ih (n / b) (Nat.div_lt_self (by omega) hb) front
      · exact ⟨n % b, Nat.mod_lt n (by omega), List.mem_singleton.mp last⟩

/-- The last digit and the ones before it determine a number. -/
theorem readHex_toDigits (n : ℕ) : readHex (Nat.toDigits 16 n) = n := by
  induction n using Nat.strongRecOn with
  | ind n ih =>
    rw [Nat.toDigits_eq_if (by decide : 1 < 16)]
    split_ifs with small
    · simp [readHex, hexValue_digitChar small]
    · have front := ih (n / 16) (by omega)
      have last := hexValue_digitChar (Nat.mod_lt n (by decide : 0 < 16))
      rw [readHex] at front
      simp only [readHex, List.foldl_append, front, List.foldl_cons, List.foldl_nil, last]
      omega

/-- The numbers in a separated text; an empty text has none. -/
def readDecimals (sep : Char) (text : List Char) : List ℕ :=
  if text = [] then [] else (text.splitOn sep).map fun digits => Nat.ofDigitChars 10 digits 0

theorem readDecimals_separated {sep : Char} (hsep : sep.isDigit = false) (ns : List ℕ) :
    readDecimals sep (separated sep (ns.map decimal)) = ns := by
  have free : ∀ f ∈ ns.map decimal, sep ∉ f := by
    intro f hf
    obtain ⟨n, _, rfl⟩ := List.mem_map.mp hf
    exact not_mem_decimal hsep n
  cases ns with
  | nil => rfl
  | cons n ns =>
    have nonempty : separated sep ((n :: ns).map decimal) ≠ [] := by
      cases ns <;> simp [separated, decimal_ne_nil]
    rw [readDecimals, if_neg nonempty, splitOn_separated free (by simp), List.map_map]
    exact List.map_id'' (fun n => Nat.ofDigitChars_ten_toDigits) _

/-- Different lists of numbers print differently. -/
theorem separated_decimal_injective (sep : Char) (hsep : sep.isDigit = false) :
    Function.Injective fun ns : List ℕ => separated sep (ns.map decimal) :=
  Function.LeftInverse.injective (readDecimals_separated hsep)

end Library
