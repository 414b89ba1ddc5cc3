import SignedPrefixes.Ipv4
import SignedPrefixes.Proofs.Positional
import SignedPrefixes.Proofs.Text.Joined
import SignedPrefixes.Proofs.Text.Numeral

/-!
# The text of IPv4 addresses

What is written for an IPv4 address is read as that address. A text that is read as one has
digits and dots only.
-/

namespace SignedPrefixes.Ipv4

open Numeral Text

/-- The four octets are the address. -/
theorem ofOctets_octets (a : Ipv4) : ofOctets a.octets = a := by
  have hlt : a.bits.toNat < 256 ^ 4 := a.bits.isLt
  rw [ofOctets, octets, Octets.toNat_ofNat, Nat.mod_eq_of_lt hlt, BitVec.ofNat_toNat,
    BitVec.setWidth_eq]

/-- The decimal number of an octet is read as that octet. -/
theorem readOctet?_toDigits (o : UInt8) : readOctet? (Nat.toDigits 10 o.toNat) = some o := by
  have hlt : o.toNat < 256 := o.toNat_lt
  have hlength : (Nat.toDigits 10 o.toNat).length ≤ 3 :=
    (Nat.length_toDigits_le_iff (by decide) (by decide)).mpr (hlt.trans (by decide))
  have hdigits : (Nat.toDigits 10 o.toNat).all Char.isDigit = true :=
    List.all_eq_true.mpr fun _ => isDigit_of_mem_toDigits
  have hzero (h : (Nat.toDigits 10 o.toNat).head? = some '0') :
      Nat.toDigits 10 o.toNat = ['0'] := by
    rw [head?_toDigits_eq_zero (by decide) h, Nat.toDigits_zero]
  unfold readOctet?
  simp only [Nat.ofDigitChars_toDigits (b := 10) (by decide) (by decide)]
  rw [if_pos ⟨Nat.toDigits_ne_nil, hlength, hdigits, hzero, hlt⟩, UInt8.ofNat_toNat]

/-- The text has digits and dots only. -/
theorem chars_subset (a : Ipv4) : ∀ c ∈ a.chars, c.isDigit = true ∨ c = '.' := by
  refine forall_mem_intercalate (Or.inr rfl) fun part hpart c hc => Or.inl ?_
  obtain ⟨o, -, rfl⟩ := List.mem_map.mp hpart
  exact isDigit_of_mem_toDigits hc

/-- The parts of the text between the dots are the numbers of the octets. -/
theorem splitOn_chars (a : Ipv4) :
    a.chars.splitOn '.' = a.octets.map fun o => Nat.toDigits 10 o.toNat := by
  refine List.splitOn_intercalate '.' (fun part hpart hdot => ?_) ?_
  · obtain ⟨o, -, rfl⟩ := List.mem_map.mp hpart
    exact absurd (isDigit_of_mem_toDigits hdot) (by decide)
  · exact List.ne_nil_of_length_eq_add_one (n := 3) (by simp [octets])

/-- What is written for an address is read as that address. -/
theorem read?_chars (a : Ipv4) : read? a.chars = some a := by
  obtain ⟨w, x, y, z, hoctets⟩ := List.length_eq_four.mp (Octets.length_ofNat 4 a.bits.toNat)
  have hback := ofOctets_octets a
  unfold read?
  rw [splitOn_chars]
  rw [octets, hoctets] at hback ⊢
  simp only [List.map_cons, List.map_nil, readOctet?_toDigits]
  exact congrArg some hback

/-- An octet is read from digits. -/
theorem isDigit_of_readOctet? {cs : List Char} {o : UInt8} (h : readOctet? cs = some o) :
    ∀ c ∈ cs, c.isDigit = true := by
  unfold readOctet? at h
  dsimp only at h
  split_ifs at h with hdigits
  exact List.all_eq_true.mp hdigits.2.2.1

/-- A text that is read as an address has digits and dots only. -/
theorem subset_of_read? {cs : List Char} {a : Ipv4} (h : read? cs = some a) :
    ∀ c ∈ cs, c.isDigit = true ∨ c = '.' := by
  unfold read? at h
  split at h
  · next w x y z hsplit =>
    simp only [Option.pure_def, Option.bind_eq_bind, Option.bind_eq_some_iff] at h
    obtain ⟨_, hw, _, hx, _, hy, _, hz, -⟩ := h
    have hjoined : ['.'].intercalate (cs.splitOn '.') = cs := List.intercalate_splitOn '.'
    rw [← hjoined, hsplit]
    refine forall_mem_intercalate (Or.inr rfl) fun part hpart c hc => Or.inl ?_
    simp only [List.mem_cons, List.not_mem_nil, or_false] at hpart
    rcases hpart with rfl | rfl | rfl | rfl
    · exact isDigit_of_readOctet? hw c hc
    · exact isDigit_of_readOctet? hx c hc
    · exact isDigit_of_readOctet? hy c hc
    · exact isDigit_of_readOctet? hz c hc
  · cases h

end SignedPrefixes.Ipv4
