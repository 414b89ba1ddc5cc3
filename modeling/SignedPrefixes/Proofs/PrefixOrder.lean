import SignedPrefixes.Proofs.Order
import SignedPrefixes.Proofs.PrefixRange

/-!
# The order of prefixes

Addresses of both families are compared as numbers of 128 bits, with those of IPv4 at the top. That
is the order of their octets, because the first octet in which two addresses differ decides. In it a
prefix stands before all others of its family whose addresses it covers: they start no earlier, and
those that start with it are longer.
-/

namespace SignedPrefixes

/-- The sixteen octets in network order. -/
def Ipv6.octets (a : Ipv6) : Octets := Octets.ofNat 16 a.bits.toNat

namespace IpAddress

/-- The family of an address. -/
def family : IpAddress → Family
  | ipv4 _ => .ipv4
  | ipv6 _ => .ipv6

/-- The octets in network order, as many as an address of the family has. -/
def octets : IpAddress → Octets
  | ipv4 a => a.octets
  | ipv6 a => a.octets

/-- An address has as many octets as its family has. -/
theorem length_octets (a : IpAddress) : a.octets.length = a.family.octetCount := by
  cases a <;> exact Octets.length_ofNat _ _

/-- The octets of two addresses of one family compare as their numbers of 128 bits. -/
theorem compareLex_octets {a b : IpAddress} (h : a.family = b.family) :
    List.compareLex compare a.octets b.octets =
      compare (Address.ofIpAddress a).bits.toNat (Address.ofIpAddress b).bits.toNat := by
  cases a with
  | ipv4 a =>
    cases b with
    | ipv4 b =>
      -- An IPv4 address has 96 zeros after its bits, which decide nothing.
      have hplaced (c : Ipv4) :
          (Address.ofIpAddress (ipv4 c)).bits.toNat = c.bits.toNat * 2 ^ 96 + 0 := by
        have hlt := c.bits.isLt
        rw [Address.ofIpAddress, Address.ofIpv4, BitVec.toNat_shiftLeft, BitVec.toNat_setWidth,
          Nat.shiftLeft_eq]
        omega
      have ha : a.bits.toNat < 256 ^ 4 := a.bits.isLt
      have hb : b.bits.toNat < 256 ^ 4 := b.bits.isLt
      rw [hplaced, hplaced, Positional.compare_mul_add _ _ (Nat.two_pow_pos _) (Nat.two_pow_pos _),
        Nat.compare_eq_eq.mpr rfl, Ordering.then_eq]
      exact Octets.compareLex_ofNat ha hb
    | ipv6 b => cases h
  | ipv6 a =>
    cases b with
    | ipv4 b => cases h
    | ipv6 b =>
      have ha : a.bits.toNat < 256 ^ 16 := a.bits.isLt
      have hb : b.bits.toNat < 256 ^ 16 := b.bits.isLt
      exact Octets.compareLex_ofNat ha hb

end IpAddress

/-- A range has all addresses of its family that another range of the family has. -/
def IpRange.Includes (r s : IpRange) : Prop :=
  r.family = s.family ∧ ∀ a : IpAddress, a.family = s.family →
    s.Contains (Address.ofIpAddress a) → r.Contains (Address.ofIpAddress a)

namespace IpPrefix

variable {p q : IpPrefix}

/-- The address of a prefix has its family. -/
theorem family_address (p : IpPrefix) : p.address.family = p.family := by
  unfold address
  cases p.family <;> rfl

/-- The octets of an address are the leading ones of its 128 bits. -/
theorem octets_address (p : IpPrefix) :
    p.address.octets = p.bits.address.octets.take p.family.octetCount := by
  unfold address
  cases p.family with
  | ipv4 =>
    have htop : p.bits.address.toIpv4.bits.toNat = p.bits.address.bits.toNat / 256 ^ 12 := by
      have hlt := p.bits.toNat_address_lt
      rw [Address.toIpv4, BitVec.toNat_setWidth, BitVec.toNat_ushiftRight,
        Nat.shiftRight_eq_div_pow]
      omega
    change Octets.ofNat 4 _ = (Octets.ofNat (4 + 12) _).take 4
    rw [Octets.take_ofNat, htop]
  | ipv6 => exact (List.take_of_length_le (Octets.length_ofNat 16 _).le).symm

/-- Prefixes of one family compare by the octets of their addresses before their lengths. -/
theorem compare_eq_compareLex_octets (p q : IpPrefix) :
    compare p q = (compare p.family q.family).then
      ((List.compareLex compare p.address.octets q.address.octets).then
        (compare p.length q.length)) := by
  rw [compare_eq]
  by_cases h : p.family = q.family
  · have hfamily : p.address.family = q.address.family := by
      rw [family_address, family_address, h]
    rw [IpAddress.compareLex_octets hfamily, ofIpAddress_address, ofIpAddress_address]
  · cases hcompare : compare p.family q.family with
    | lt => rfl
    | eq => exact absurd (Std.compare_eq_iff_eq.mp hcompare) h
    | gt => rfl

/-- A prefix contains its own address. -/
theorem contains_address (p : IpPrefix) : p.range.Contains (Address.ofIpAddress p.address) := by
  rw [ofIpAddress_address]
  exact p.bits.covers_address

/-- A prefix that is not as long as an address of its family has one in its upper half. -/
theorem exists_upper_half (h : p.length < p.family.width) :
    ∃ a : IpAddress, a.family = p.family ∧ p.range.Contains (Address.ofIpAddress a) ∧
      (Address.ofIpAddress a).bits.getMsbD p.bits.length = true := by
  have hle : p.length + 1 ≤ 128 := h.trans_le p.family.width_le
  let half : IpPrefix := ⟨p.family, .ofAddress p.bits.max (p.length + 1) hle, h⟩
  refine ⟨half.address, half.family_address, ?_, ?_⟩
  · have hmax : half.bits.Covers p.bits.max := (Prefix.covers_ofAddress_iff hle).mpr fun _ _ => rfl
    rw [ofIpAddress_address]
    exact Prefix.covers_of_covers (Nat.le_succ _) p.bits.covers_max hmax half.bits.covers_address
  · have hnext : p.bits.length < p.length + 1 := Nat.lt_succ_self _
    rw [ofIpAddress_address]
    change (Address.clearAfter _ _).bits.getMsbD p.bits.length = true
    rw [Address.getMsbD_clearAfter _ hle, decide_eq_true hnext, Bool.true_and,
      p.bits.getMsbD_max le_rfl hle]

/-- A prefix includes another one of its family exactly if it is no longer and covers the address
of the other one. -/
theorem includes_range_iff_covers :
    p.range.Includes q.range ↔
      p.family = q.family ∧ p.length ≤ q.length ∧ p.bits.Covers q.bits.address := by
  constructor
  · rintro ⟨hfamily, hall⟩
    change p.family = q.family at hfamily
    have hcovers := hall q.address q.family_address q.contains_address
    rw [ofIpAddress_address] at hcovers
    refine ⟨hfamily, Nat.le_of_not_lt fun hlt => ?_, hcovers⟩
    -- A longer prefix that covers the lower end has nothing of the upper half.
    have hroom : q.length < q.family.width := hfamily ▸ hlt.trans_le p.length_le
    obtain ⟨a, ha, hcontains, hset⟩ := exists_upper_half hroom
    have hupper := Prefix.covers_iff_agreeUpTo.mp (hall a ha hcontains) q.bits.length hlt
    have hlower := Prefix.covers_iff_agreeUpTo.mp hcovers q.bits.length hlt
    rw [hset, ← hlower, q.bits.getMsbD_of_length_le le_rfl] at hupper
    cases hupper
  · rintro ⟨hfamily, hle, hcovers⟩
    exact ⟨hfamily, fun _ _ => Prefix.covers_of_covers hle hcovers q.bits.covers_address⟩

/-- A prefix includes another one of its family exactly if it begins no later and ends no
earlier. -/
theorem includes_range_iff :
    p.range.Includes q.range ↔
      p.family = q.family ∧ p.range.min ≤ q.range.min ∧ q.range.max ≤ p.range.max := by
  constructor
  · intro h
    obtain ⟨hfamily, hle, hcovers⟩ := includes_range_iff_covers.mp h
    have hmax := Prefix.covers_of_covers hle hcovers q.bits.covers_address q.bits.covers_max
    exact ⟨hfamily, hcovers.1, hmax.2⟩
  · rintro ⟨hfamily, hmin, hmax⟩
    refine ⟨hfamily, fun _ _ hcontains => ?_⟩
    exact ⟨Nat.le_trans hmin hcontains.1, Nat.le_trans hcontains.2 hmax⟩

instance (p q : IpPrefix) : Decidable (p.range.Includes q.range) :=
  decidable_of_iff _ includes_range_iff.symm

/-- A prefix stands before all others that it includes. -/
theorem lt_of_includes (hne : p ≠ q) (h : p.range.Includes q.range) : p < q := by
  obtain ⟨hfamily, hlength, hcovers⟩ := includes_range_iff_covers.mp h
  have hmin : p.bits.address.bits.toNat ≤ q.bits.address.bits.toNat := hcovers.1
  change compare p q = .lt
  rw [compare_eq, Std.compare_eq_iff_eq.mpr hfamily, Ordering.eq_then, Ordering.then_eq_lt]
  rcases Nat.lt_or_eq_of_le hmin with hbefore | heq
  · exact Or.inl (Nat.compare_eq_lt.mpr hbefore)
  · refine Or.inr ⟨Nat.compare_eq_eq.mpr heq, Nat.compare_eq_lt.mpr (hlength.lt_of_ne ?_)⟩
    intro hlengths
    apply hne
    apply Std.LawfulEqOrd.eq_of_compare
    rw [compare_eq, Std.compare_eq_iff_eq.mpr hfamily, Nat.compare_eq_eq.mpr heq,
      Nat.compare_eq_eq.mpr hlengths]
    rfl

/-- Comparison puts all prefixes in one order and tells any two of them apart. The order is by
family, IPv4 first, then by the octets of the address in network order, the leading four or all
sixteen of its 128 bits, and then by length. In it a prefix stands before every other one that it
includes. To include all addresses of the family, also of the short one, is the same as to begin no
later and to end no earlier in 128 bits. -/
theorem order_lexicographic :
    (∀ p q : IpPrefix, (compare p q = .eq ↔ p = q) ∧ compare q p = (compare p q).swap) ∧
    (∀ p q r : IpPrefix, compare p q ≠ .gt → compare q r ≠ .gt → compare p r ≠ .gt) ∧
    (∀ p q : IpPrefix, compare p q = (compare p.family q.family).then
      ((List.compareLex compare p.address.octets q.address.octets).then
        (compare p.length q.length))) ∧
    (∀ p q : IpPrefix, p.family = .ipv4 → q.family = .ipv6 → compare p q = .lt) ∧
    (∀ p : IpPrefix, p.address.octets.length = p.family.octetCount ∧
      p.address.octets = p.bits.address.octets.take p.family.octetCount) ∧
    (∀ p q : IpPrefix, p ≠ q → p.range.Includes q.range → compare p q = .lt) ∧
    ∀ p q : IpPrefix, p.range.Includes q.range ↔
      p.family = q.family ∧ p.range.min ≤ q.range.min ∧ q.range.max ≤ p.range.max := by
  refine ⟨?_, ?_, compare_eq_compareLex_octets, fun _ _ => lt_of_family, ?_,
    fun _ _ => lt_of_includes, fun _ _ => includes_range_iff⟩
  · intro p q
    exact ⟨Std.compare_eq_iff_eq, Std.OrientedOrd.eq_swap⟩
  · intro p q r hpq hqr
    exact le_trans (b := q) hpq hqr
  · intro p
    refine ⟨?_, p.octets_address⟩
    rw [IpAddress.length_octets, family_address]

/-- The prefix 10.0.0.0/16 stands before 10.0.128.0/24, which it includes, and that one stands
before all of IPv6. -/
theorem order_lexicographic_nested :
    ∃ outer inner all : IpPrefix,
      (outer.address = .ipv4 ⟨0x0a000000⟩ ∧ outer.length = 16) ∧
      (inner.address = .ipv4 ⟨0x0a008000⟩ ∧ inner.length = 24) ∧
      (all.address = .ipv6 ⟨0⟩ ∧ all.length = 0) ∧
      outer ≠ inner ∧ outer.range.Includes inner.range ∧ compare outer inner = .lt ∧
      compare inner all = .lt ∧ compare outer all ≠ .gt := by
  let outer : IpPrefix :=
    ⟨.ipv4, .ofAddress (Address.ofIpv4 ⟨0x0a000000⟩) 16 (by decide), by decide⟩
  let inner : IpPrefix :=
    ⟨.ipv4, .ofAddress (Address.ofIpv4 ⟨0x0a008000⟩) 24 (by decide), by decide⟩
  let all : IpPrefix := ⟨.ipv6, .ofAddress (Address.ofIpv6 ⟨0⟩) 0 (by decide), by decide⟩
  obtain ⟨-, htrans, -, hfamilies, -, hbefore, -⟩ := order_lexicographic
  have hne : outer ≠ inner := by decide
  have hincludes : outer.range.Includes inner.range := by decide
  have hnested : compare outer inner = .lt := hbefore outer inner hne hincludes
  have hlast : compare inner all = .lt := hfamilies inner all rfl rfl
  refine ⟨outer, inner, all, by decide, by decide, by decide, hne, hincludes, hnested, hlast, ?_⟩
  apply htrans outer inner all
  · rw [hnested]
    decide
  · rw [hlast]
    decide

end IpPrefix

end SignedPrefixes
