/-!
# Decimal numerals with a bound

A numeral is one or more ASCII digits, optionally after a plus sign, with any
number of leading zeros. Reading stops at the first character that is no digit
or makes the number exceed the bound, and reports which of the two it was.
-/

namespace SignedPrefixes.Numeral

/-- Why a text is not a numeral within the bound. -/
inductive Fault where
  /-- There are no characters at all. -/
  | empty
  /-- A character is not a digit, or a sign stands alone. -/
  | notDigit
  /-- The number is larger than the bound. -/
  | tooLarge
  deriving DecidableEq, Repr

/-- The wording of a fault. -/
def Fault.message : Fault → String
  | empty => "cannot parse integer from empty string"
  | notDigit => "invalid digit found in string"
  | tooLarge => "number too large to fit in target type"

/-- Continues a number, whose leading digits had the value `n`, with further digits. -/
def readDigits (max : Nat) (n : Nat) : List Char → Except Fault Nat
  | [] => .ok n
  | c :: cs =>
    if c.isDigit then
      let m := 10 * n + (c.toNat - '0'.toNat)
      if m ≤ max then readDigits max m cs else .error .tooLarge
    else .error .notDigit

/-- Reads a whole text as a numeral of at most `max`. -/
def read (max : Nat) : List Char → Except Fault Nat
  | [] => .error .empty
  | ['+'] => .error .notDigit
  | '+' :: cs => readDigits max 0 cs
  | cs => readDigits max 0 cs

/-- Digits give their decimal value if that is within the bound. -/
theorem readDigits_eq_ok_iff {max n m : Nat} {cs : List Char} (hn : n ≤ max) :
    readDigits max n cs = .ok m ↔
      (∀ c ∈ cs, c.isDigit = true) ∧ Nat.ofDigitChars 10 cs n = m ∧ m ≤ max := by
  induction cs generalizing n with
  | nil =>
    simp only [readDigits, Except.ok.injEq, List.not_mem_nil, false_implies, implies_true,
      Nat.ofDigitChars_nil, true_and]
    constructor
    · rintro rfl
      exact ⟨rfl, hn⟩
    · exact And.left
  | cons c cs ih =>
    have hgrow : ∀ (cs : List Char) (k : Nat), k ≤ Nat.ofDigitChars 10 cs k := by
      intro cs
      induction cs with
      | nil => exact fun k => Nat.le_refl k
      | cons c cs ih =>
        intro k
        rw [Nat.ofDigitChars_cons]
        exact Nat.le_trans (by omega) (ih _)
    rw [Nat.ofDigitChars_cons]
    by_cases hc : c.isDigit = true
    · by_cases hm : 10 * n + (c.toNat - '0'.toNat) ≤ max
      · simp only [readDigits, hc, ↓reduceIte, hm, ih hm, List.mem_cons, forall_eq_or_imp,
          true_and]
      · simp only [readDigits, hc, ↓reduceIte, hm, reduceCtorEq, List.mem_cons, forall_eq_or_imp,
          true_and, false_iff, not_and]
        rintro _ rfl hle
        exact hm (Nat.le_trans (hgrow cs _) hle)
    · simp [readDigits, hc]

end SignedPrefixes.Numeral
