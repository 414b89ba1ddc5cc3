import Mathlib
import SignedPrefixes.IpAddress

/-!
# Clearing and filling as arithmetic

Clearing the bits of an address after a length rounds its number down to a
multiple of the size of that part, and filling them adds one less than that size.
Seen bit by bit, clearing keeps those before the length and no others.
-/

namespace SignedPrefixes.Address

/-- Clearing the bits after a length rounds the number of an address down. -/
theorem toNat_clearAfter (a : Address) (length : ℕ) :
    (a.clearAfter length).bits.toNat =
      a.bits.toNat / 2 ^ (128 - length) * 2 ^ (128 - length) := by
  have hle : a.bits.toNat / 2 ^ (128 - length) * 2 ^ (128 - length) ≤ a.bits.toNat :=
    Nat.div_mul_le_self _ _
  have hlt := a.bits.isLt
  rw [clearAfter, BitVec.toNat_shiftLeft, BitVec.toNat_ushiftRight, Nat.shiftRight_eq_div_pow,
    Nat.shiftLeft_eq, Nat.mod_eq_of_lt (by omega)]

/-- Clearing keeps the leading bits, and no bit after them is set. -/
theorem getMsbD_clearAfter (a : Address) {length : ℕ} (hle : length ≤ 128) (i : ℕ) :
    (a.clearAfter length).bits.getMsbD i = (decide (i < length) && a.bits.getMsbD i) := by
  rw [clearAfter, BitVec.getMsbD_shiftLeft, BitVec.getMsbD_ushiftRight]
  by_cases hi : i < length
  · have hin : i + (128 - length) < 128 := by omega
    simp [hin, hi]
  · have hout : ¬i + (128 - length) < 128 := by omega
    simp [hout, hi]

/-- The bits after a length, all set, are one less than a power of two. -/
private theorem toNat_allOnes_ushiftRight (length : ℕ) :
    (BitVec.allOnes 128 >>> length).toNat = 2 ^ (128 - length) - 1 := by
  rw [BitVec.toNat_ushiftRight, BitVec.toNat_allOnes, Nat.shiftRight_eq_div_pow]
  by_cases h : length ≤ 128
  · have hsplit : 2 ^ 128 = 2 ^ length * 2 ^ (128 - length) := by
      rw [← pow_add, Nat.add_sub_cancel' h]
    rw [hsplit, Nat.mul_sub_div 0 _ _ (by positivity), Nat.zero_div]
  · have hpow : 2 ^ 128 ≤ 2 ^ length := Nat.pow_le_pow_right (by decide) (by omega)
    rw [Nat.sub_eq_zero_of_le (Nat.le_of_not_le h), pow_zero, Nat.sub_self,
      Nat.div_eq_of_lt (by omega)]

/-- Setting the bits after a length rounds the number of an address up. -/
theorem toNat_fillAfter (a : Address) (length : ℕ) :
    (a.fillAfter length).bits.toNat =
      a.bits.toNat / 2 ^ (128 - length) * 2 ^ (128 - length) + (2 ^ (128 - length) - 1) := by
  rw [fillAfter, BitVec.toNat_or, toNat_allOnes_ushiftRight, Nat.mul_comm (_ / _),
    Nat.two_pow_add_eq_or_of_lt (Nat.sub_lt (by positivity) (by decide))]
  refine Nat.eq_of_testBit_eq fun i => ?_
  by_cases hi : i < 128 - length
  · simp [Nat.testBit_or, Nat.testBit_two_pow_sub_one, hi]
  · have hback : 128 - length + (i - (128 - length)) = i := by omega
    simp [Nat.testBit_or, Nat.testBit_two_pow_sub_one, Nat.testBit_two_pow_mul,
      Nat.testBit_div_two_pow, hi, Nat.le_of_not_lt hi, Nat.add_comm, hback]

end SignedPrefixes.Address
