import SignedPrefixes.IpPrefix
import SignedPrefixes.Proofs.Address
import SignedPrefixes.Proofs.Positional

/-!
# Prefixes as bit strings

The bit string of a prefix has just the octets that its leading bits need, and
its unused bits are zero. Read as a prefix it is that prefix again. A bit string
whose unused bits are zero, or must be, is the bit string of the prefix it is
read as.
-/

namespace SignedPrefixes

/-- The octets of an address start with those that it is made of. -/
theorem Address.take_octets_ofOctets {os : Octets} (hlength : os.length ≤ 16) :
    (ofOctets os).octets.take os.length = os := by
  have hfull : (os ++ List.replicate (16 - os.length) 0).length = 16 := by
    rw [List.length_append, List.length_replicate]
    omega
  have hlt := Octets.toNat_lt (os ++ List.replicate (16 - os.length) 0)
  have hback := Octets.ofNat_toNat (os ++ List.replicate (16 - os.length) 0)
  rw [hfull] at hlt hback
  rw [octets, ofOctets, BitVec.toNat_ofNat]
  rw [(Nat.mod_eq_of_lt hlt : _ % 2 ^ 128 = _), hback, List.take_left' rfl]

/-- An address is made of its octets. -/
theorem Address.ofOctets_octets (a : Address) : ofOctets a.octets = a := by
  apply ext_toNat
  have hlength : a.octets.length = 16 := Octets.length_ofNat 16 _
  have hlt : a.bits.toNat < 256 ^ 16 := a.bits.isLt
  rw [ofOctets, hlength, Nat.sub_self, List.replicate_zero, List.append_nil, octets,
    Octets.toNat_ofNat, Nat.mod_eq_of_lt hlt, BitVec.ofNat_toNat, BitVec.setWidth_eq]

/-- The octets of an address are those it is made of, if there are enough. -/
theorem Address.octets_ofOctets {os : Octets} (hlength : os.length = 16) :
    (ofOctets os).octets = os := by
  have htake := take_octets_ofOctets hlength.le
  have hall : (ofOctets os).octets.length = os.length :=
    (Octets.length_ofNat 16 _).trans hlength.symm
  rwa [List.take_of_length_le hall.le] at htake

namespace BitString

variable {s : BitString}

/-- The bits of octets that fit a family fit it as well. -/
theorem length_le_width {family : Family} (h : s.octets.length ≤ family.octetCount) :
    s.length ≤ family.width := by
  rw [family.width_eq, length]
  omega

/-- The bits of a bit string and its unused bits fill its octets. -/
theorem length_add_unused (s : BitString) : s.length + s.unused = 8 * s.octets.length := by
  have hunused := s.unused_le
  have hempty : s.octets.length = 0 → s.unused = 0 := fun hzero =>
    s.unused_eq_zero (List.eq_nil_of_length_eq_zero hzero)
  rw [length]
  omega

/-- The octets with all unused bits cleared. -/
def clearedOctets (s : BitString) : Octets :=
  match s.octets.getLast? with
  | none => []
  | some last => s.octets.dropLast ++ [last >>> UInt8.ofNat s.unused <<< UInt8.ofNat s.unused]

/-- Clearing bits keeps the number of octets. -/
theorem length_clearedOctets (s : BitString) : s.clearedOctets.length = s.octets.length := by
  obtain hnil | ⟨front, last, hsplit⟩ := List.eq_nil_or_concat s.octets
  · simp [clearedOctets, hnil]
  · simp [clearedOctets, hsplit]

/-- Shifting an octet there and back clears its last bits. -/
private theorem toNat_clear (o : UInt8) {n : ℕ} (hn : n ≤ 7) :
    (o >>> UInt8.ofNat n <<< UInt8.ofNat n).toNat = o.toNat / 2 ^ n * 2 ^ n := by
  have hcount : (UInt8.ofNat n).toNat % 8 = n := by
    have htoNat : (UInt8.ofNat n).toNat = n := UInt8.toNat_ofNat_of_lt (hn.trans_lt (by decide))
    rw [htoNat, Nat.mod_eq_of_lt (Nat.lt_succ_of_le hn)]
  have hlt : o.toNat / 2 ^ n * 2 ^ n < 2 ^ 8 := (Nat.div_mul_le_self _ _).trans_lt o.toNat_lt
  rw [UInt8.toNat_shiftLeft, UInt8.toNat_shiftRight, hcount, Nat.shiftRight_eq_div_pow,
    Nat.shiftLeft_eq, Nat.mod_eq_of_lt hlt]

/-- As a number, clearing the unused bits is rounding down. -/
theorem toNat_clearedOctets (s : BitString) :
    Octets.toNat s.clearedOctets = Octets.toNat s.octets / 2 ^ s.unused * 2 ^ s.unused := by
  obtain hnil | ⟨front, last, hsplit⟩ := List.eq_nil_or_concat s.octets
  · simp [clearedOctets, hnil, Octets.toNat]
  · have hoctet : 2 ^ s.unused ∣ 256 := Nat.pow_dvd_pow 2 (s.unused_le.trans (by decide) : _ ≤ 8)
    have hcleared : s.clearedOctets =
        front ++ [last >>> UInt8.ofNat s.unused <<< UInt8.ofNat s.unused] := by
      simp [clearedOctets, hsplit]
    rw [hcleared, hsplit, List.concat_eq_append, Octets.toNat_append, Octets.toNat_append,
      Octets.toNat_singleton, Octets.toNat_singleton, toNat_clear _ s.unused_le,
      List.length_singleton, List.length_singleton, pow_one,
      Nat.add_div_of_dvd_right (hoctet.mul_left _), Nat.add_mul,
      Nat.div_mul_cancel (hoctet.mul_left _)]

/-- There is nothing to be cleared without unused bits. -/
theorem clearedOctets_eq (h : s.hasUnusedBits = false) : s.clearedOctets = s.octets := by
  obtain hnil | ⟨front, last, hsplit⟩ := List.eq_nil_or_concat s.octets
  · simp [clearedOctets, hnil]
  · have hlast : last.toNat % 2 ^ s.unused = 0 := by
      simpa [hasUnusedBits, hsplit, Nat.shiftLeft_eq] using h
    have hsame : last >>> UInt8.ofNat s.unused <<< UInt8.ofNat s.unused = last := by
      rw [← UInt8.toNat_inj, toNat_clear _ s.unused_le,
        Nat.div_mul_cancel (Nat.dvd_of_mod_eq_zero hlast)]
    simp [clearedOctets, hsplit, hsame]

/-- Clearing the bits of an address after those of a bit string clears the unused bits. -/
theorem clearAfter_ofOctets (hlength : s.octets.length ≤ 16) :
    (Address.ofOctets s.octets).clearAfter s.length = Address.ofOctets s.clearedOctets := by
  apply Address.ext_toNat
  have hbits : 128 - s.length = s.unused + 8 * (16 - s.octets.length) := by
    have hsum := s.length_add_unused
    omega
  have hpow : (256 : ℕ) ^ (16 - s.octets.length) = 2 ^ (8 * (16 - s.octets.length)) := by
    rw [pow_mul]
    rfl
  have hvalue (os : Octets) (h : os.length = s.octets.length) :
      (Address.ofOctets os).bits.toNat = Octets.toNat os * 256 ^ (16 - s.octets.length) := by
    have hlt := Octets.toNat_lt (os ++ List.replicate (16 - os.length) 0)
    rw [List.length_append, List.length_replicate, h, Nat.add_sub_cancel' hlength] at hlt
    rw [Address.ofOctets, BitVec.toNat_ofNat, h, (Nat.mod_eq_of_lt hlt : _ % 2 ^ 128 = _),
      Octets.toNat_append, Octets.toNat_replicate_zero, List.length_replicate, Nat.add_zero]
  rw [Address.toNat_clearAfter, hvalue _ rfl, hvalue _ s.length_clearedOctets, hbits, pow_add,
    ← hpow, Nat.mul_div_mul_right _ _ (by positivity), ← Nat.mul_assoc, toNat_clearedOctets]

end BitString

namespace Prefix

variable {p : Prefix} {s : BitString} {family : Family} {strict : Bool}

/-- An address has 128 bits. -/
theorem toNat_address_lt (p : Prefix) : p.address.bits.toNat < 2 ^ 128 := p.address.bits.isLt

/-- The bits of a prefix after its length are zero. -/
theorem pow_dvd_toNat_address (p : Prefix) : 2 ^ (128 - p.length) ∣ p.address.bits.toNat := by
  have hclear := congrArg (fun a => a.bits.toNat) p.clearAfter_eq
  simp only [Address.toNat_clearAfter] at hclear
  exact Dvd.intro_left _ hclear

/-- No bit of a prefix is set after its length. -/
theorem getMsbD_of_length_le {i : ℕ} (h : p.length ≤ i) : p.address.bits.getMsbD i = false := by
  rw [← p.clearAfter_eq, Address.getMsbD_clearAfter _ p.length_le, decide_eq_false (by omega),
    Bool.false_and]

/-- A prefix is written in the first octets of its address, as many as its length needs. -/
theorem octets_toBitString (p : Prefix) :
    p.toBitString.octets =
      Octets.ofNat ((p.length + 7) / 8)
        (p.address.bits.toNat / 256 ^ (16 - (p.length + 7) / 8)) := by
  have hle := p.length_le
  have hsplit : 16 = (p.length + 7) / 8 + (16 - (p.length + 7) / 8) := by omega
  change (Octets.ofNat 16 _).take _ = _
  conv_lhs => rw [hsplit]
  rw [Octets.take_ofNat]

/-- A prefix is written in as many octets as its length needs. -/
theorem length_octets_toBitString (p : Prefix) :
    p.toBitString.octets.length = (p.length + 7) / 8 := by
  rw [octets_toBitString, Octets.length_ofNat]

/-- A prefix is written with its length. -/
theorem length_toBitString (p : Prefix) : p.toBitString.length = p.length := by
  rw [BitString.length, length_octets_toBitString]
  change _ - (8 - p.length % 8) % 8 = _
  omega

/-- The octets that a prefix is written in make up its address. -/
theorem ofOctets_toBitString (p : Prefix) : Address.ofOctets p.toBitString.octets = p.address := by
  apply Address.ext_toNat
  have hlt := p.toNat_address_lt
  have hle := p.length_le
  have hlength := length_octets_toBitString p
  obtain ⟨k, hk⟩ : ∃ k, 16 - (p.length + 7) / 8 = k := ⟨_, rfl⟩
  have hpow : (256 : ℕ) ^ k ∣ p.address.bits.toNat := by
    have hbits : (256 : ℕ) ^ k = 2 ^ (8 * k) := by
      rw [pow_mul]
      rfl
    rw [hbits]
    exact (Nat.pow_dvd_pow 2 (by omega)).trans p.pow_dvd_toNat_address
  have htop : p.address.bits.toNat / 256 ^ k < 256 ^ ((p.length + 7) / 8) := by
    rw [Nat.div_lt_iff_lt_mul (by positivity), ← pow_add]
    have hsum : (p.length + 7) / 8 + k = 16 := by omega
    rw [hsum]
    exact hlt
  rw [Address.ofOctets, hlength, hk, BitVec.toNat_ofNat, Octets.toNat_append,
    Octets.toNat_replicate_zero, List.length_replicate, octets_toBitString, hk,
    Octets.toNat_ofNat, Nat.mod_eq_of_lt htop, Nat.add_zero, Nat.div_mul_cancel hpow,
    Nat.mod_eq_of_lt hlt]

/-- What reading a bit string comes to: the string is not too long for the family, it says how
long the prefix is, and the address starts with its bits. If unused bits must be zero, clearing
them changes nothing. -/
theorem ofBitString_eq_ok_iff :
    ofBitString family strict s = .ok p ↔
      s.octets.length ≤ family.octetCount ∧ p.length = s.length ∧
        p.address = (Address.ofOctets s.octets).clearAfter s.length ∧
        (strict = true → p.address = Address.ofOctets s.octets) := by
  unfold ofBitString
  by_cases hfits : s.octets.length ≤ family.octetCount
  · have hle : s.length ≤ 128 := (BitString.length_le_width hfits).trans family.width_le
    rw [if_neg (Nat.not_lt.mpr hfits)]
    simp only [new?, dif_pos hle]
    have hsame : ofAddress (.ofOctets s.octets) s.length hle = p ↔
        p.length = s.length ∧ p.address = (Address.ofOctets s.octets).clearAfter s.length := by
      obtain ⟨address, length, -, -⟩ := p
      rw [ofAddress, mk.injEq]
      exact ⟨fun h => ⟨h.2.symm, h.1.symm⟩, fun h => ⟨h.2.symm, h.1.symm⟩⟩
    split_ifs with hset
    · refine ⟨nofun, fun ⟨_, _, haddress, hclear⟩ => ?_⟩
      exact absurd (haddress.symm.trans (hclear hset.1)) hset.2
    · rw [Except.ok.injEq, hsame]
      refine ⟨fun ⟨hlength, haddress⟩ => ⟨hfits, hlength, haddress, fun hstrict => ?_⟩,
        fun ⟨_, hlength, haddress, _⟩ => ⟨hlength, haddress⟩⟩
      exact haddress.trans (of_not_not fun hne => hset ⟨hstrict, hne⟩)
  · rw [if_pos (Nat.lt_of_not_le hfits)]
    exact ⟨nofun, fun h => absurd h.1 hfits⟩

/-- If unused bits may be set, every bit string that is not too long is read. -/
theorem exists_ofBitString (h : s.octets.length ≤ family.octetCount) :
    ∃ p, ofBitString family false s = .ok p := by
  have hle : s.length ≤ 128 := (BitString.length_le_width h).trans family.width_le
  exact ⟨ofAddress (.ofOctets s.octets) s.length hle,
    ofBitString_eq_ok_iff.mpr ⟨h, rfl, rfl, nofun⟩⟩

/-- Clearing set bits changes nothing about a prefix that has none. -/
theorem ofBitString_of_imp {strict' : Bool} (hstrict : strict' = true → strict = true)
    (h : ofBitString family strict s = .ok p) : ofBitString family strict' s = .ok p := by
  obtain ⟨hfits, hlength, haddress, hclear⟩ := ofBitString_eq_ok_iff.mp h
  exact ofBitString_eq_ok_iff.mpr ⟨hfits, hlength, haddress, hclear ∘ hstrict⟩

/-- A prefix of a family that is made of a bit string fits the family. -/
theorem length_le_of_ofBitString (h : ofBitString family strict s = .ok p) :
    p.length ≤ family.width := by
  obtain ⟨hfits, hlength, -⟩ := ofBitString_eq_ok_iff.mp h
  exact hlength.trans_le (BitString.length_le_width hfits)

/-- The address of a prefix that is read holds the octets with the unused bits cleared. -/
theorem octets_of_ofBitString (h : ofBitString family strict s = .ok p) :
    p.address.octets = s.clearedOctets ++ List.replicate (16 - s.octets.length) 0 := by
  obtain ⟨hfits, -, haddress, -⟩ := ofBitString_eq_ok_iff.mp h
  have hlength := hfits.trans family.octetCount_le
  have hfull : (s.clearedOctets ++ List.replicate (16 - s.octets.length) 0).length = 16 := by
    rw [List.length_append, BitString.length_clearedOctets, List.length_replicate,
      Nat.add_sub_cancel' hlength]
  have hsame : Address.ofOctets s.clearedOctets =
      Address.ofOctets (s.clearedOctets ++ List.replicate (16 - s.octets.length) 0) := by
    rw [Address.ofOctets, Address.ofOctets, hfull, BitString.length_clearedOctets, Nat.sub_self,
      List.replicate_zero, List.append_nil]
  rw [haddress, BitString.clearAfter_ofOctets hlength, hsame, Address.octets_ofOctets hfull]

/-- What is written for a prefix is the bit string that it was read from, with the unused bits
cleared. -/
theorem toBitString_eq_of_ofBitString (h : ofBitString family strict s = .ok p) :
    p.toBitString.unused = s.unused ∧ p.toBitString.octets = s.clearedOctets := by
  obtain ⟨hfits, hlength, -, -⟩ := ofBitString_eq_ok_iff.mp h
  have hsum := s.length_add_unused
  have hunused := s.unused_le
  constructor
  · change (8 - p.length % 8) % 8 = s.unused
    omega
  · have hcount : (p.length + 7) / 8 = s.octets.length := by omega
    change p.address.octets.take ((p.length + 7) / 8) = s.clearedOctets
    rw [octets_of_ofBitString h, hcount, ← s.length_clearedOctets, List.take_left]

/-- If unused bits must be zero, a bit string is the one of the prefix it is read as. -/
theorem toBitString_of_ofBitString (h : ofBitString family true s = .ok p) : p.toBitString = s := by
  obtain ⟨hunused, hoctets⟩ := toBitString_eq_of_ofBitString h
  obtain ⟨hfits, -, -, haddress⟩ := ofBitString_eq_ok_iff.mp h
  have hsame : s.clearedOctets = s.octets := by
    rw [← Address.take_octets_ofOctets (hfits.trans family.octetCount_le), ← haddress rfl,
      octets_of_ofBitString h, ← s.length_clearedOctets, List.take_left]
  have hnew : BitString.new? s.octets s.unused = some s :=
    BitString.new?_eq_some_iff.mpr ⟨rfl, rfl⟩
  have hnew' : BitString.new? s.octets s.unused = some p.toBitString :=
    BitString.new?_eq_some_iff.mpr ⟨hoctets.trans hsame, hunused⟩
  exact Option.some.inj (hnew'.symm.trans hnew)

/-- The bit string of a prefix is read as that prefix, in each family whose addresses are
long enough. -/
theorem ofBitString_toBitString (hlength : p.length ≤ family.width) :
    ofBitString family strict p.toBitString = .ok p := by
  have hfits : p.toBitString.octets.length ≤ family.octetCount := by
    have hwidth := family.width_eq
    rw [length_octets_toBitString]
    omega
  refine ofBitString_eq_ok_iff.mpr ⟨hfits, p.length_toBitString.symm, ?_, fun _ => ?_⟩
  · rw [ofOctets_toBitString, length_toBitString, p.clearAfter_eq]
  · rw [ofOctets_toBitString]

/-- A prefix is written without set unused bits. -/
theorem hasUnusedBits_toBitString (p : Prefix) : p.toBitString.hasUnusedBits = false := by
  obtain ⟨k, hk⟩ : ∃ k, (p.length + 7) / 8 = k := ⟨_, rfl⟩
  have hoctets := octets_toBitString p
  unfold BitString.hasUnusedBits
  rw [hoctets, hk]
  cases k with
  | zero => rfl
  | succ j =>
    have hle := p.length_le
    have hunused : p.toBitString.unused ≤ 7 := p.toBitString.unused_le
    have hcount : 8 * (j + 1) - p.length = p.toBitString.unused := by
      change _ = (8 - p.length % 8) % 8
      omega
    -- The bits after the length are those of the octets that are dropped and the unused ones.
    have hpow : (2 : ℕ) ^ (128 - p.length) = 256 ^ (16 - (j + 1)) * 2 ^ p.toBitString.unused := by
      have hbits : (256 : ℕ) ^ (16 - (j + 1)) = 2 ^ (8 * (16 - (j + 1))) := by
        rw [pow_mul]
        rfl
      rw [hbits, ← pow_add]
      congr 1
      omega
    obtain ⟨q, hq⟩ := p.pow_dvd_toNat_address
    have hquotient : 2 ^ p.toBitString.unused ∣ p.address.bits.toNat / 256 ^ (16 - (j + 1)) := by
      rw [hq, hpow, Nat.mul_assoc, Nat.mul_div_cancel_left _ (by positivity)]
      exact Nat.dvd_mul_right _ _
    have hoctet : 2 ^ p.toBitString.unused ∣ 256 := Nat.pow_dvd_pow 2 (by omega : _ ≤ 8)
    have hlast := (Nat.dvd_mod_iff hoctet).mpr hquotient
    have hvalue (n : ℕ) : (UInt8.ofNat (n % 256)).toNat = n % 256 :=
      UInt8.toNat_ofNat_of_lt (Nat.mod_lt _ (by decide))
    rw [Octets.ofNat_succ, List.getLast?_append, List.getLast?_singleton]
    simp only [Option.some_or, Nat.shiftLeft_eq, Nat.one_mul]
    rw [hvalue, Nat.mod_eq_zero_of_dvd hlast]
    rfl

end Prefix

end SignedPrefixes
