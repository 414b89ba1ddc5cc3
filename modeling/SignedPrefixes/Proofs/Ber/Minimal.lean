import SignedPrefixes.Ber.Primitive
import SignedPrefixes.Ber.Writer
import SignedPrefixes.Proofs.Positional

/-!
# The fewest octets of a number

The binary logarithm of a number tells how many octets the number needs. Written
with just those, its first octet is not zero. The other way round, octets of which
the first one is not zero are the fewest for their number. For numbers with a sign
bit the same is true of their double.
-/

namespace SignedPrefixes

/-- A number needs as many octets as there are powers of 256 that are not above it. -/
theorem log2_div_eight_eq_iff {n k : ℕ} (hn : n ≠ 0) :
    n.log2 / 8 = k ↔ 256 ^ k ≤ n ∧ n < 256 ^ (k + 1) := by
  have hpow : ∀ j : ℕ, 256 ^ j = 2 ^ (8 * j) := fun j => by rw [pow_mul]; rfl
  rw [hpow, hpow, ← Nat.le_log2 hn, ← Nat.log2_lt hn]
  omega

namespace Octets

variable {o : UInt8} {os : Octets} {n : ℕ}

/-- An octet that is not zero stands for one at least. -/
private theorem one_le_toNat (ho : o ≠ 0) : 1 ≤ o.toNat := by
  have hne : o.toNat ≠ 0 := fun hzero => ho (UInt8.toNat_inj.mp hzero)
  omega

/-- Octets that start with another one than zero need all of their places. -/
theorem pow_le_toNat_cons (ho : o ≠ 0) : 256 ^ os.length ≤ toNat (o :: os) := by
  have hmul := Nat.mul_le_mul_right (256 ^ os.length) (one_le_toNat ho)
  rw [toNat_cons]
  omega

/-- A number that fits a width is written in it. -/
theorem toNat_ofNat_of_lt {width : ℕ} (hn : n < 256 ^ width) : toNat (ofNat width n) = n := by
  rw [toNat_ofNat, Nat.mod_eq_of_lt hn]

/-- Octets that do not start with zero are the fewest for their number. -/
theorem log2_toNat_cons (ho : o ≠ 0) : (toNat (o :: os)).log2 / 8 = os.length := by
  have hle : 256 ^ os.length ≤ toNat (o :: os) := pow_le_toNat_cons ho
  have hpos : 0 < 256 ^ os.length := by positivity
  have hlt := toNat_lt (o :: os)
  exact (log2_div_eight_eq_iff (by omega)).mpr ⟨hle, hlt⟩

/-- The fewest octets of a number do not start with zero. -/
theorem exists_ofNat_eq_cons (hn : n ≠ 0) :
    ∃ o os, ofNat (n.log2 / 8 + 1) n = o :: os ∧ o ≠ 0 ∧ os.length = n.log2 / 8 := by
  obtain ⟨hle, hlt⟩ := (log2_div_eight_eq_iff hn).mp rfl
  cases hos : ofNat (n.log2 / 8 + 1) n with
  | nil => exact absurd (congrArg List.length hos) (by simp)
  | cons o os =>
    have hlength : os.length = n.log2 / 8 := by
      have hlength := congrArg List.length hos
      simpa using hlength.symm
    refine ⟨o, os, rfl, ?_, hlength⟩
    rintro rfl
    have hnumber := toNat_ofNat_of_lt hlt
    have hrest := toNat_lt os
    rw [hos, toNat_cons, UInt8.toNat_zero, Nat.zero_mul, Nat.zero_add] at hnumber
    rw [hnumber, hlength] at hrest
    omega

end Octets

namespace Ber

open Octets

/-- A length that is not padded has the fewest octets, and is not one of those that fit
the first octet. -/
theorem fewest_of_isPadded_eq_false {os : Octets} (hne : os ≠ []) (h : isPadded os = false) :
    128 ≤ toNat os ∧ (toNat os).log2 / 8 + 1 = os.length := by
  match os, hne, h with
  | [o], _, h =>
    have hge : 128 ≤ o.toNat := by simpa [isPadded, UInt8.le_iff_toNat_le] using h
    have ho : o ≠ 0 := by
      rintro rfl
      exact absurd hge (by decide)
    exact ⟨by rwa [toNat_singleton], by rw [log2_toNat_cons ho, List.length_cons]⟩
  | o :: o' :: os, _, h =>
    have ho : o ≠ 0 := by simpa [isPadded] using h
    have hle : 256 ^ (o' :: os).length ≤ toNat (o :: o' :: os) := pow_le_toNat_cons ho
    have hpow : 256 ≤ 256 ^ (o' :: os).length := Nat.le_self_pow (by simp) 256
    exact ⟨by omega, by rw [log2_toNat_cons ho, ← List.length_cons]⟩

/-- A long length in as few octets as possible is not padded. -/
theorem isPadded_ofNat {n : ℕ} (hn : 128 ≤ n) : isPadded (ofNat (n.log2 / 8 + 1) n) = false := by
  obtain ⟨o, os, hos, ho, -⟩ := exists_ofNat_eq_cons (n := n) (by omega)
  rw [hos]
  cases os with
  | nil =>
    have hnumber : Octets.toNat (ofNat (n.log2 / 8 + 1) n) = n :=
      toNat_ofNat_of_lt ((log2_div_eight_eq_iff (by omega)).mp rfl).2
    rw [hos, toNat_singleton] at hnumber
    have hlarge : ¬o < 0x80 := by
      rw [UInt8.lt_iff_toNat_lt, hnumber]
      exact Nat.not_lt.mpr hn
    simpa [isPadded] using hlarge
  | cons o' os => simpa [isPadded] using ho

end Ber

namespace Der

open Ber

variable {n : ℕ}

/-- The sign takes one more bit. -/
theorem signedWidth_eq (hn : n ≠ 0) : signedWidth n = (2 * n).log2 / 8 + 1 := by
  rw [signedWidth, Nat.log2_two_mul hn]

/-- The octets of a number leave room for a sign bit, and one octet less would not. -/
theorem signedWidth_eq_iff (k : ℕ) :
    signedWidth n = k + 1 ↔ (k = 0 ∨ 256 ^ k ≤ 2 * n) ∧ 2 * n < 256 ^ (k + 1) := by
  by_cases hn : n = 0
  · subst hn
    have hpos : 0 < 256 ^ (k + 1) := by positivity
    have hpos' : 0 < 256 ^ k := by positivity
    have hwidth : signedWidth 0 = 1 := by decide
    omega
  · rw [signedWidth_eq hn, Nat.add_right_cancel_iff, log2_div_eight_eq_iff (by omega)]
    constructor
    · rintro ⟨hle, hlt⟩
      exact ⟨Or.inr hle, hlt⟩
    · rintro ⟨rfl | hle, hlt⟩
      · exact ⟨by rw [pow_zero]; omega, hlt⟩
      · exact ⟨hle, hlt⟩

/-- The content of an integer that is read is the one that is written. -/
theorem integerOctets_of_unsigned32? {os : Octets} {number : UInt32}
    (hread : unsigned32? os = some number) : os = integerOctets number.toNat := by
  have hsize : ∀ m < UInt32.size, (UInt32.ofNat m).toNat = m := fun m hm =>
    UInt32.toNat_ofNat_of_lt hm
  have hofNat : ∀ m, os.length = signedWidth m → Octets.toNat os = m →
      os = integerOctets (m : ℤ) := by
    rintro m hlength rfl
    change os = Octets.ofNat (signedWidth (Octets.toNat os)) (Octets.toNat os)
    rw [← hlength, Octets.ofNat_toNat]
  match os, hread with
  | [o], hread =>
    simp only [unsigned32?, Option.ite_none_right_eq_some, Option.some.injEq] at hread
    obtain ⟨ho, rfl⟩ := hread
    have ho : o.toNat < 128 := UInt8.lt_iff_toNat_lt.mp ho
    rw [hsize _ (Nat.lt_trans ho (by decide))]
    refine hofNat o.toNat ?_ (Octets.toNat_singleton o)
    exact ((signedWidth_eq_iff 0).mpr ⟨Or.inl rfl, by omega⟩).symm
  | o :: o' :: os, hread =>
    simp only [unsigned32?, Option.ite_none_right_eq_some, Option.some.injEq] at hread
    obtain ⟨⟨ho, hfirst, hlt⟩, rfl⟩ := hread
    rw [hsize _ hlt]
    refine hofNat _ ?_ rfl
    have ho : o.toNat < 128 := UInt8.lt_iff_toNat_lt.mp ho
    have hrest := Octets.toNat_lt (o' :: os)
    have htop := Nat.mul_le_mul_right (256 ^ (os.length + 1)) (Nat.succ_le_of_lt ho)
    refine ((signedWidth_eq_iff (os.length + 1)).mpr ⟨Or.inr ?_, ?_⟩).symm
    · by_cases hzero : o = 0
      · -- The first octet is there for the sign bit, so the second one starts with a bit set.
        have ho' : 128 ≤ o'.toNat := by
          have hge : ¬o' < 0x80 := fun hlt => hfirst ⟨hzero, hlt⟩
          rw [UInt8.lt_iff_toNat_lt] at hge
          exact Nat.le_of_not_lt hge
        have hmul := Nat.mul_le_mul_right (256 ^ os.length) ho'
        rw [hzero, Octets.toNat_cons, Octets.toNat_cons, UInt8.toNat_zero, pow_succ]
        omega
      · have hle : 256 ^ (o' :: os).length ≤ Octets.toNat (o :: o' :: os) :=
          Octets.pow_le_toNat_cons hzero
        rw [List.length_cons] at hle
        omega
    · rw [Octets.toNat_cons, pow_succ]
      rw [List.length_cons] at hrest ⊢
      rw [Nat.succ_eq_add_one, Nat.add_mul] at htop
      omega

/-- Written with the fewest octets, a number starts with a clear bit, and its second
octet would not do so if the first one is zero. -/
theorem exists_ofNat_signedWidth (n : ℕ) :
    ∃ o os, Octets.ofNat (signedWidth n) n = o :: os ∧ o < 0x80 ∧ Octets.toNat (o :: os) = n ∧
      ∀ o' os', os = o' :: os' → ¬(o = 0 ∧ o' < 0x80) := by
  obtain ⟨k, hk⟩ : ∃ k, signedWidth n = k + 1 := ⟨_, rfl⟩
  obtain ⟨hle, hlt⟩ := (signedWidth_eq_iff k).mp hk
  have hnumber : Octets.toNat (Octets.ofNat (k + 1) n) = n :=
    Octets.toNat_ofNat_of_lt (by omega)
  rw [hk]
  cases hos : Octets.ofNat (k + 1) n with
  | nil => exact absurd (congrArg List.length hos) (by simp)
  | cons o os =>
    have hlength : os.length = k := by
      have hlength := congrArg List.length hos
      simpa using hlength.symm
    rw [hos] at hnumber
    refine ⟨o, os, rfl, ?_, hnumber, ?_⟩
    · rw [Octets.toNat_cons, hlength] at hnumber
      rw [UInt8.lt_iff_toNat_lt]
      -- Otherwise the top bit is set, and there is no room for the sign.
      by_contra hge
      have hmul := Nat.mul_le_mul_right (256 ^ k) (Nat.le_of_not_lt hge)
      rw [pow_succ] at hlt
      change 128 * 256 ^ k ≤ _ at hmul
      omega
    · rintro o' os' rfl ⟨rfl, ho'⟩
      have ho' : o'.toNat < 128 := UInt8.lt_iff_toNat_lt.mp ho'
      have hrest := Octets.toNat_lt os'
      have hmul := Nat.mul_le_mul_right (256 ^ os'.length) (Nat.succ_le_of_lt ho')
      rw [Octets.toNat_cons, Octets.toNat_cons, UInt8.toNat_zero] at hnumber
      rw [List.length_cons] at hlength
      rw [Nat.succ_eq_add_one, Nat.add_mul] at hmul
      -- Then the number would have fit one octet less.
      rcases hle with rfl | hle
      · cases hlength
      · rw [← hlength, pow_succ] at hle
        omega

/-- The content of an integer is read back if it is a number of 32 bits, and is refused
otherwise. -/
theorem unsigned32?_integerOctets (n : ℤ) :
    unsigned32? (integerOctets n) =
      if 0 ≤ n ∧ n < UInt32.size then some (UInt32.ofNat n.toNat) else none := by
  cases n with
  | ofNat n =>
    obtain ⟨o, os, hos, ho, hnumber, hfirst⟩ := exists_ofNat_signedWidth n
    simp only [integerOctets, hos, Int.ofNat_eq_natCast, Int.toNat_natCast]
    cases os with
    | nil =>
      rw [Octets.toNat_singleton] at hnumber
      have ho' : o.toNat < 128 := UInt8.lt_iff_toNat_lt.mp ho
      have hlt : n < UInt32.size := by
        rw [← hnumber]
        exact Nat.lt_trans ho' (by decide)
      simp [unsigned32?, ho, hnumber, hlt]
    | cons o' os =>
      have hfirst := hfirst o' os rfl
      simp [unsigned32?, ho, hfirst, hnumber]
  | negSucc n =>
    obtain ⟨o, os, hos, ho, -, -⟩ := exists_ofNat_signedWidth n
    -- A negative number is the complement of another one, so its top bit is set.
    have hcomplement : ¬~~~o < 0x80 := by
      rw [UInt8.lt_iff_toNat_lt, UInt8.toNat_not]
      have ho : o.toNat < 128 := UInt8.lt_iff_toNat_lt.mp ho
      change ¬256 - 1 - o.toNat < 128
      omega
    have hnegative : ¬(0 ≤ Int.negSucc n ∧ Int.negSucc n < UInt32.size) := by
      rintro ⟨hle, -⟩
      exact absurd hle (Int.not_le.mpr (Int.negSucc_lt_zero n))
    rw [if_neg hnegative]
    simp only [integerOctets, hos, List.map_cons]
    cases os with
    | nil => simp [unsigned32?, hcomplement]
    | cons o' os => simp [unsigned32?, hcomplement]

end Der

end SignedPrefixes
