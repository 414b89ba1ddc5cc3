import SignedPrefixes.Proofs.Prefix

/-!
# IPv4 addresses in 128 bits

An IPv4 address keeps its bits when it is placed at the top of 128 bits. Taking it out again and
placing it back clears the other bits, so nothing changes about a prefix of the family.
-/

namespace SignedPrefixes

namespace Address

/-- Addresses are equal if their bits are, counted from the top. -/
theorem ext_getMsbD {a b : Address} (h : ∀ i < 128, a.bits.getMsbD i = b.bits.getMsbD i) :
    a = b := by
  cases a
  cases b
  exact congrArg mk (BitVec.eq_of_getMsbD_eq h)

/-- An IPv4 address has its own bits at the top. -/
theorem getMsbD_ofIpv4 (a : Ipv4) (i : ℕ) : (ofIpv4 a).bits.getMsbD i = a.bits.getMsbD i := by
  rw [ofIpv4, BitVec.getMsbD_shiftLeft, BitVec.getMsbD_setWidth]
  simp

/-- The IPv4 part of an address has the first 32 bits. -/
theorem getMsbD_toIpv4 (a : Address) (i : ℕ) :
    a.toIpv4.bits.getMsbD i = (decide (i < 32) && a.bits.getMsbD i) := by
  rw [toIpv4, BitVec.getMsbD_setWidth, BitVec.getMsbD_ushiftRight]
  by_cases hi : i < 32
  · have hin : i + 96 < 128 := by omega
    simp [hi, hin]
  · have hout : ¬i + 96 < 128 := by omega
    simp [hi, hout]

/-- Placing an IPv4 address back clears the other bits. -/
theorem ofIpv4_toIpv4 (a : Address) : ofIpv4 a.toIpv4 = a.clearAfter 32 := by
  refine ext_getMsbD fun i _ => ?_
  rw [getMsbD_ofIpv4, getMsbD_toIpv4, getMsbD_clearAfter a (by decide)]

end Address

namespace Prefix

/-- Clearing bits after the length of a prefix changes nothing. -/
theorem clearAfter_of_length_le {p : Prefix} {n : ℕ} (h : p.length ≤ n) (hn : n ≤ 128) :
    p.address.clearAfter n = p.address := by
  refine Address.ext_getMsbD fun i _ => ?_
  rw [Address.getMsbD_clearAfter _ hn]
  by_cases hi : i < n
  · simp [hi]
  · rw [p.getMsbD_of_length_le (h.trans (Nat.le_of_not_lt hi)), Bool.and_false]

/-- The leading bits of the address of a prefix are that prefix. -/
theorem new?_address (p : Prefix) : new? p.address p.length = some p := by
  rw [new?, dif_pos p.length_le]
  obtain ⟨address, length, -, hclear⟩ := p
  simp only [ofAddress, hclear]

end Prefix

namespace IpPrefix

/-- The address of a prefix in its family has the same bits. -/
theorem ofIpAddress_address (p : IpPrefix) : Address.ofIpAddress p.address = p.bits.address := by
  have hle := p.length_le
  unfold address
  cases hfamily : p.family with
  | ipv4 =>
    rw [hfamily] at hle
    exact (Address.ofIpv4_toIpv4 _).trans (Prefix.clearAfter_of_length_le hle (by decide))
  | ipv6 => rfl

/-- A prefix is its own address and length. -/
theorem ofIpAddress?_address (p : IpPrefix) : ofIpAddress? p.address p.length = some p := by
  have hbits : Prefix.new? (Address.ofIpAddress p.address) p.length = some p.bits := by
    rw [ofIpAddress_address, length, Prefix.new?_address]
  unfold ofIpAddress?
  rw [hbits]
  have hnew : new? p.family p.bits = some p := dif_pos p.length_le
  unfold address
  cases hfamily : p.family <;> rw [hfamily] at hnew <;> exact hnew

end IpPrefix

end SignedPrefixes
