import SignedPrefixes.Proofs.IpAddress
import SignedPrefixes.Proofs.PrefixWords

/-!
# The range of a prefix

A prefix covers the addresses that start with its bits. In numeric order these are all addresses
from the smallest to the largest one covered, so whether an address is covered is decided by two
comparisons. Two prefixes either have no address in common or one of them covers all that the other
one covers.
-/

namespace SignedPrefixes

/-- Whether two words have the same first `n` bits. -/
def AgreeUpTo {w : ℕ} (n : ℕ) (a b : BitVec w) : Prop := ∀ i < n, a.getMsbD i = b.getMsbD i

instance {w : ℕ} (n : ℕ) (a b : BitVec w) : Decidable (AgreeUpTo n a b) :=
  inferInstanceAs (Decidable (∀ i < n, a.getMsbD i = b.getMsbD i))

namespace AgreeUpTo

variable {w m n : ℕ} {a b c : BitVec w}

/-- It does not matter which of two strings agrees with the other. -/
theorem symm (h : AgreeUpTo n a b) : AgreeUpTo n b a := fun i hi => (h i hi).symm

/-- What agrees with the same string up to a place agrees up to this place. -/
theorem trans (hab : AgreeUpTo n a b) (hbc : AgreeUpTo n b c) : AgreeUpTo n a c :=
  fun i hi => (hab i hi).trans (hbc i hi)

/-- Strings that agree up to a place agree up to those before it. -/
theorem of_le (h : AgreeUpTo n a b) (hle : m ≤ n) : AgreeUpTo m a b :=
  fun i hi => h i (hi.trans_le hle)

end AgreeUpTo

namespace Address

variable {a b : Address} {n : ℕ}

/-- Clearing all other bits leaves the same if the first bits are the same. -/
theorem clearAfter_eq_clearAfter_iff (hle : n ≤ 128) :
    a.clearAfter n = b.clearAfter n ↔ AgreeUpTo n a.bits b.bits := by
  constructor
  · intro heq i hi
    have hbit := congrArg (fun x : Address => x.bits.getMsbD i) heq
    simpa [getMsbD_clearAfter _ hle, hi] using hbit
  · intro hagree
    apply ext_getMsbD
    intro i _
    rw [getMsbD_clearAfter _ hle, getMsbD_clearAfter _ hle]
    by_cases hi : i < n
    · rw [hagree i hi]
    · rw [decide_eq_false hi, Bool.false_and, Bool.false_and]

/-- Filling keeps the leading bits and sets all others. -/
theorem getMsbD_fillAfter (a : Address) (n : ℕ) {i : ℕ} (hi : i < 128) :
    (a.fillAfter n).bits.getMsbD i = (a.bits.getMsbD i || decide (n ≤ i)) := by
  rw [fillAfter, BitVec.getMsbD_or, BitVec.getMsbD_ushiftRight, BitVec.getMsbD_allOnes]
  have hback : i - n < 128 := by omega
  by_cases hn : i < n
  · have hout : ¬n ≤ i := by omega
    simp [hn, hout]
  · have hin : n ≤ i := by omega
    simp [hi, hback, hn, hin]

/-- The numbers between clearing and filling are those that clearing takes to the same number. -/
theorem between_iff (a x : Address) (n : ℕ) :
    a.clearAfter n ≤ x ∧ x ≤ a.fillAfter n ↔ x.clearAfter n = a.clearAfter n := by
  have hsize : 0 < 2 ^ (128 - n) := Nat.two_pow_pos _
  have hclear : x.clearAfter n = a.clearAfter n ↔
      x.bits.toNat / 2 ^ (128 - n) = a.bits.toNat / 2 ^ (128 - n) := by
    constructor
    · intro heq
      have hnumber := congrArg (fun y : Address => y.bits.toNat) heq
      simp only [toNat_clearAfter] at hnumber
      exact Nat.eq_of_mul_eq_mul_right hsize hnumber
    · intro heq
      apply ext_toNat
      rw [toNat_clearAfter, toNat_clearAfter, heq]
  rw [hclear, Nat.div_eq_iff hsize]
  change (a.clearAfter n).bits.toNat ≤ _ ∧ _ ≤ (a.fillAfter n).bits.toNat ↔ _
  rw [toNat_clearAfter, toNat_fillAfter, Nat.add_sub_assoc hsize]

end Address

/-- An address lies between the ends of a range. -/
def IpRange.Contains (r : IpRange) (x : Address) : Prop := r.min ≤ x ∧ x ≤ r.max

namespace Prefix

variable {p q : Prefix} {x y : Address}

/-- An address lies between the smallest and the largest address covered. -/
def Covers (p : Prefix) (x : Address) : Prop := p.min ≤ x ∧ x ≤ p.max

/-- A prefix covers the addresses that are its own once their last bits are cleared. -/
theorem covers_iff_clearAfter_eq : p.Covers x ↔ x.clearAfter p.length = p.address := by
  have hbetween := p.address.between_iff x p.length
  rw [p.clearAfter_eq] at hbetween
  exact hbetween

/-- A prefix covers the addresses that agree with its own up to its length. -/
theorem covers_iff_agreeUpTo : p.Covers x ↔ AgreeUpTo p.length x.bits p.address.bits := by
  rw [covers_iff_clearAfter_eq, ← Address.clearAfter_eq_clearAfter_iff p.length_le,
    p.clearAfter_eq]

/-- The prefix of an address covers the addresses that agree with it up to the length. -/
theorem covers_ofAddress_iff {a : Address} {n : ℕ} (h : n ≤ 128) :
    (ofAddress a n h).Covers x ↔ AgreeUpTo n x.bits a.bits := by
  rw [covers_iff_clearAfter_eq]
  exact Address.clearAfter_eq_clearAfter_iff h

/-- A prefix covers its own address. -/
theorem covers_address (p : Prefix) : p.Covers p.address :=
  covers_iff_clearAfter_eq.mpr p.clearAfter_eq

/-- A prefix covers its last address. -/
theorem covers_max (p : Prefix) : p.Covers p.max := ⟨p.covers_address.2, Nat.le_refl _⟩

/-- A prefix that covers an address of a prefix with no fewer bits covers all of them. -/
theorem covers_of_covers (hle : p.length ≤ q.length) (hpx : p.Covers x) (hqx : q.Covers x)
    (hqy : q.Covers y) : p.Covers y := by
  rw [covers_iff_agreeUpTo] at hpx hqx hqy ⊢
  have hxy : AgreeUpTo q.length y.bits x.bits := hqy.trans hqx.symm
  exact (hxy.of_le hle).trans hpx

/-- Two prefixes cover no common address, or one covers all that the other one covers. -/
theorem disjoint_or_nested (p q : Prefix) :
    (∀ x, ¬(p.Covers x ∧ q.Covers x)) ∨ (∀ x, q.Covers x → p.Covers x) ∨
      ∀ x, p.Covers x → q.Covers x := by
  by_cases hcommon : ∃ x, p.Covers x ∧ q.Covers x
  · obtain ⟨x, hpx, hqx⟩ := hcommon
    rcases le_total p.length q.length with hle | hle
    · exact Or.inr (Or.inl fun y => covers_of_covers hle hpx hqx)
    · exact Or.inr (Or.inr fun y => covers_of_covers hle hqx hpx)
  · exact Or.inl (not_exists.mp hcommon)

/-- The largest address covered has all bits set after the length, up to the last of 128. -/
theorem getMsbD_max (p : Prefix) {i : ℕ} (hi : p.length ≤ i) (hlast : i < 128) :
    p.max.bits.getMsbD i = true := by
  rw [max, Address.getMsbD_fillAfter _ _ hlast, decide_eq_true hi, Bool.or_true]

end Prefix

namespace PrefixWords

/-- Setting bits by a mask comes to the same as filling. -/
theorem fillRest_eq (bits : BitVec 128) (length : UInt8) :
    fillRest bits length = ((Address.mk bits).fillAfter length.toNat).bits := by
  unfold fillRest
  split_ifs with hall
  · have hall : 128 ≤ length.toNat := UInt8.le_iff_toNat_le.mp hall
    apply BitVec.eq_of_getMsbD_eq
    intro i hi
    have hout : ¬length.toNat ≤ i := by omega
    rw [Address.getMsbD_fillAfter _ _ hi, decide_eq_false hout, Bool.or_false]
  · rfl

/-- The word of the lowest address is that of the first address. -/
theorem lowest_ofPrefix (p : Prefix) : (ofPrefix p).lowest = p.min.bits := rfl

/-- The word of the highest address is that of the last address. -/
theorem highest_ofPrefix (p : Prefix) : (ofPrefix p).highest = p.max.bits := by
  rw [highest, fillRest_eq, toNat_length_ofPrefix]
  rfl

end PrefixWords

namespace IpPrefix

variable {p : IpPrefix}

/-- The range of a prefix contains the addresses that the prefix covers. -/
theorem contains_range_iff {x : Address} : p.range.Contains x ↔ p.bits.Covers x := Iff.rfl

/-- An IPv4 address lies in the range of an IPv4 prefix if it starts with the bits of the address
of the prefix. -/
theorem contains_ofIpv4_iff {a : Ipv4} (ha : p.address = .ipv4 a) (y : Ipv4) :
    p.range.Contains (Address.ofIpv4 y) ↔ AgreeUpTo p.length y.bits a.bits := by
  have hbits : Address.ofIpv4 a = p.bits.address := by
    rw [← p.ofIpAddress_address, ha]
    rfl
  rw [contains_range_iff, Prefix.covers_iff_agreeUpTo, ← hbits]
  unfold AgreeUpTo
  simp only [Address.getMsbD_ofIpv4]
  rfl

/-- The address of an IPv4 prefix is an IPv4 address. -/
theorem exists_ipv4_address (hfamily : p.family = .ipv4) : ∃ a, p.address = .ipv4 a := by
  refine ⟨p.bits.address.toIpv4, ?_⟩
  rw [address, hfamily]

/-- The two ends of a range tell which addresses a prefix covers: those with the same leading bits
as the address that it was made from, which are those whose other bits, once cleared, leave the
address of the prefix. The words of a prefix have the same ends. An IPv4 address lies between the
ends of the range of an IPv4 prefix exactly if it has the leading bits of the prefix, although all
bits of the largest address up to the last of 128 are set. The ranges of any two prefixes, of one
family or not, have nothing in common or lie one in the other. -/
theorem range_exact :
    (∀ (a x : Address) (n : ℕ) (h : n ≤ 128),
      ((Prefix.ofAddress a n h).Covers x ↔ AgreeUpTo n x.bits a.bits) ∧
      ((Prefix.ofAddress a n h).Covers x ↔ x.clearAfter n = (Prefix.ofAddress a n h).address)) ∧
    (∀ (a x : Address) (n : ℕ) (h : n ≤ 128), ∃ w : PrefixWords,
      (PrefixWords.new a.bits (UInt8.ofNat n) : Except (Stop Empty) PrefixWords) = .ok w ∧
      w.lowest = (Prefix.ofAddress a n h).min.bits ∧
      w.highest = (Prefix.ofAddress a n h).max.bits ∧
      PrefixWords.keepFirst x.bits (UInt8.ofNat n) = (x.clearAfter n).bits) ∧
    (∀ p : IpPrefix, p.family = .ipv4 → ∃ a, p.address = .ipv4 a ∧
      (∀ y : Ipv4, p.range.Contains (Address.ofIpv4 y) ↔ AgreeUpTo p.length y.bits a.bits) ∧
      ∀ i, p.length ≤ i → i < 128 → p.range.max.bits.getMsbD i = true) ∧
    ∀ p q : IpPrefix,
      (∀ x, ¬(p.range.Contains x ∧ q.range.Contains x)) ∨
      (∀ x, q.range.Contains x → p.range.Contains x) ∨
      ∀ x, p.range.Contains x → q.range.Contains x := by
  refine ⟨?_, ?_, ?_, fun p q => p.bits.disjoint_or_nested q.bits⟩
  · intro a x n h
    exact ⟨Prefix.covers_ofAddress_iff h, Prefix.covers_iff_clearAfter_eq⟩
  · intro a x n h
    exact ⟨.ofPrefix (.ofAddress a n h), PrefixWords.new_ofNat a h,
      PrefixWords.lowest_ofPrefix _, PrefixWords.highest_ofPrefix _,
      PrefixWords.keepFirst_ofNat x h⟩
  · intro p hfamily
    obtain ⟨a, ha⟩ := exists_ipv4_address hfamily
    exact ⟨a, ha, contains_ofIpv4_iff ha, fun i => p.bits.getMsbD_max⟩

/-- The prefix 192.0.2.0/24 covers 192.0.2.77, but not 192.0.3.0. -/
theorem range_exact_documentation :
    ∃ p : IpPrefix, p.address = .ipv4 ⟨0xc0000200⟩ ∧ p.length = 24 ∧
      p.range.Contains (Address.ofIpv4 ⟨0xc000024d⟩) ∧
      ¬p.range.Contains (Address.ofIpv4 ⟨0xc0000300⟩) := by
  let p : IpPrefix :=
    ⟨.ipv4, .ofAddress (Address.ofIpv4 ⟨0xc0000200⟩) 24 (by decide), by decide⟩
  have haddress : p.address = .ipv4 ⟨0xc0000200⟩ := by decide
  obtain ⟨-, -, hipv4, -⟩ := range_exact
  obtain ⟨a, ha, hcontains, -⟩ := hipv4 p rfl
  obtain rfl := IpAddress.ipv4.inj (haddress.symm.trans ha)
  refine ⟨p, haddress, rfl, (hcontains _).mpr (by decide), fun h => ?_⟩
  exact absurd ((hcontains _).mp h) (by decide)

end IpPrefix

end SignedPrefixes
