import Mathlib
import SignedPrefixes.Numeral

/-!
# Numerals and their values

A numeral within the bound is read as its value, and nothing else is read. The shortest digits
of a number make up a numeral, and only those of zero start with a zero.
-/

namespace SignedPrefixes.Numeral

variable {max n : ℕ} {cs : List Char}

/-- The text is a numeral with the given value: one or more digits, optionally after a plus
sign. -/
def IsNumeral (cs : List Char) (n : ℕ) : Prop :=
  ∃ digits, (cs = digits ∨ cs = '+' :: digits) ∧ digits ≠ [] ∧
    (∀ c ∈ digits, c.isDigit = true) ∧ Nat.ofDigitChars 10 digits 0 = n

/-- After a plus sign there must be digits. -/
private theorem read_plus_eq_ok_iff :
    read max ('+' :: cs) = .ok n ↔
      cs ≠ [] ∧ (∀ c ∈ cs, c.isDigit = true) ∧ Nat.ofDigitChars 10 cs 0 = n ∧ n ≤ max := by
  cases cs with
  | nil => simp [read]
  | cons c cs =>
    change readDigits max 0 (c :: cs) = .ok n ↔ _
    rw [readDigits_eq_ok_iff (Nat.zero_le max)]
    simp

/-- Without a plus sign the digits start at the front. -/
private theorem read_of_head_ne {c : Char} (hc : c ≠ '+') :
    read max (c :: cs) = readDigits max 0 (c :: cs) := by
  unfold read
  split
  · contradiction
  · exact absurd (List.cons.inj ‹_›).1 hc
  · exact absurd (List.cons.inj ‹_›).1 hc
  · rfl

/-- A text is read as a number exactly if it is a numeral for it and the number is within the
bound. -/
theorem read_eq_ok_iff : read max cs = .ok n ↔ IsNumeral cs n ∧ n ≤ max := by
  cases cs with
  | nil => simp [read, IsNumeral]
  | cons c cs =>
    by_cases hc : c = '+'
    · subst hc
      rw [read_plus_eq_ok_iff]
      constructor
      · rintro ⟨hne, hdigits, hvalue, hmax⟩
        exact ⟨⟨cs, Or.inr rfl, hne, hdigits, hvalue⟩, hmax⟩
      · rintro ⟨⟨digits, rfl | hplus, hne, hdigits, hvalue⟩, hmax⟩
        · exact absurd (hdigits '+' List.mem_cons_self) (by decide)
        · obtain rfl := (List.cons.inj hplus).2
          exact ⟨hne, hdigits, hvalue, hmax⟩
    · rw [read_of_head_ne hc, readDigits_eq_ok_iff (Nat.zero_le max)]
      constructor
      · rintro ⟨hdigits, hvalue, hmax⟩
        exact ⟨⟨c :: cs, Or.inl rfl, List.cons_ne_nil c cs, hdigits, hvalue⟩, hmax⟩
      · rintro ⟨⟨digits, rfl | hplus, -, hdigits, hvalue⟩, hmax⟩
        · exact ⟨hdigits, hvalue, hmax⟩
        · exact absurd (List.cons.inj hplus).1 hc

/-- A number is written in digits. -/
theorem isDigit_of_mem_toDigits {c : Char} (hc : c ∈ Nat.toDigits 10 n) : c.isDigit = true :=
  Nat.isDigit_of_mem_toDigits (by decide) (by decide) hc

/-- The shortest digits of a number are read as that number if it is within the bound. -/
theorem read_toDigits (h : n ≤ max) : read max (Nat.toDigits 10 n) = .ok n :=
  read_eq_ok_iff.mpr ⟨⟨Nat.toDigits 10 n, Or.inl rfl, Nat.toDigits_ne_nil,
    fun _ => isDigit_of_mem_toDigits, Nat.ofDigitChars_toDigits (by decide) (by decide)⟩, h⟩

/-- Only the shortest digits of zero start with a zero. -/
theorem head?_toDigits_eq_zero {base : ℕ} (hbase : 1 < base)
    (h : (Nat.toDigits base n).head? = some '0') : n = 0 := by
  induction n using Nat.strongRecOn with
  | ind n ih =>
    by_cases hlt : n < base
    · rw [Nat.toDigits_of_lt_base hlt] at h
      simpa using h
    · have hle := Nat.le_of_not_lt hlt
      have hdiv : 0 < n / base := Nat.div_pos hle (by omega)
      rw [Nat.toDigits_of_base_le hbase hle,
        List.head?_append_of_ne_nil _ Nat.toDigits_ne_nil] at h
      have hzero := ih (n / base) (Nat.div_lt_self (by omega) hbase) h
      omega

end SignedPrefixes.Numeral
