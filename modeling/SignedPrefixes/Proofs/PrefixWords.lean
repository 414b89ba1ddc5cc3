import SignedPrefixes.PrefixWords
import SignedPrefixes.Proofs.Prefix

/-!
# The words of a prefix mean the prefix

Shifting octets in and masking bits out comes to the same as reading the octets as a number
and clearing bits. A bit string that is not too long for its family has at most 128 bits, so
its length fits an octet and a prefix with that many bits may be made. What is read from a bit
string therefore fits its family.
-/

namespace SignedPrefixes.PrefixWords

variable {ε : Type} {family : Family} {strict : Bool} {s : BitString} {p : Prefix}

section Shifting

/-- Shifting an octet into a word is adding a digit to its number. -/
private theorem shiftOctet_eq (n : ℕ) (o : UInt8) :
    shiftOctet (BitVec.ofNat 128 n) o = BitVec.ofNat 128 (n * 256 + o.toNat) := by
  have hdisjoint : BitVec.ofNat 128 n <<< 8 &&& o.toBitVec.setWidth 128 = 0#128 := by
    apply BitVec.eq_of_getLsbD_eq
    intro i hi
    by_cases h : i < 8
    · simp [h]
    · simp [o.toBitVec.getLsbD_of_ge i (Nat.le_of_not_lt h)]
  rw [shiftOctet, ← BitVec.add_eq_or_of_and_eq_zero _ _ hdisjoint]
  apply BitVec.eq_of_toNat_eq
  have ho : o.toNat < 256 := o.toNat_lt
  simp only [BitVec.toNat_add, BitVec.toNat_shiftLeft, BitVec.toNat_ofNat, BitVec.toNat_setWidth,
    UInt8.toNat_toBitVec, Nat.shiftLeft_eq]
  omega

/-- Shifting octets into an empty word makes the word of their number. -/
private theorem foldl_shift_eq (os : Octets) :
    os.foldl shiftOctet 0 = BitVec.ofNat 128 (Octets.toNat os) := by
  induction os using List.reverseRecOn with
  | nil => rfl
  | append_singleton os o ih =>
    rw [List.foldl_append, ih, Octets.toNat_append, Octets.toNat_singleton]
    exact shiftOctet_eq _ o

/-- Shifting a word by octets adds zeros to its number. -/
private theorem repeat_shift_eq (k n : ℕ) :
    Nat.repeat (fun bits : BitVec 128 => bits <<< 8) k (BitVec.ofNat 128 n) =
      BitVec.ofNat 128 (n * 256 ^ k) := by
  induction k with
  | zero => rw [pow_zero, Nat.mul_one]; rfl
  | succ k ih =>
    change Nat.repeat (fun bits : BitVec 128 => bits <<< 8) k (BitVec.ofNat 128 n) <<< 8 = _
    rw [ih, pow_succ, ← Nat.mul_assoc]
    apply BitVec.eq_of_toNat_eq
    simp only [BitVec.toNat_shiftLeft, BitVec.toNat_ofNat, Nat.shiftLeft_eq]
    rw [Nat.mod_mul_mod]

/-- Shifting octets in is reading them as a number whose last octets are zero. -/
theorem shiftIn_eq (os : Octets) : shiftIn os = (Address.ofOctets os).bits := by
  unfold shiftIn
  rw [foldl_shift_eq, repeat_shift_eq, Address.ofOctets, Octets.toNat_append,
    Octets.toNat_replicate_zero, List.length_replicate, Nat.add_zero]

/-- Masking keeps what clearing keeps. -/
theorem keepFirst_eq (bits : BitVec 128) {length : UInt8} (hle : length ≤ 128) :
    keepFirst bits length = ((Address.mk bits).clearAfter length.toNat).bits := by
  have hle : length.toNat ≤ 128 := hle
  apply BitVec.eq_of_getMsbD_eq
  intro i hi
  rw [Address.getMsbD_clearAfter _ hle]
  unfold keepFirst
  have hiff : 128 ≤ length ↔ 128 ≤ length.toNat := UInt8.le_iff_toNat_le
  split_ifs with hall hnone
  · have hi : i < length.toNat := hi.trans_le (hiff.mp hall)
    simp [hi]
  · subst hnone
    simp
  · have hshift : i - length.toNat < 128 := by omega
    simp only [BitVec.getMsbD_and, BitVec.getMsbD_not, BitVec.getMsbD_ushiftRight,
      BitVec.getMsbD_allOnes, hi, hshift, decide_true, Bool.true_and, Bool.not_not,
      Bool.and_comm]

end Shifting

/-- The number of bits of a prefix fits an octet. -/
theorem toNat_length_ofPrefix (p : Prefix) : (ofPrefix p).length.toNat = p.length :=
  UInt8.toNat_ofNat_of_lt (p.length_le.trans_lt (by decide))

section Reading

/-- A number that fits an octet is narrowed without misuse. -/
theorem narrow_of_lt {n : ℕ} (h : n < 256) :
    (narrow n : Except (Stop ε) UInt8) = .ok (UInt8.ofNat n) :=
  if_pos h

/-- The length of an address fits an octet. -/
private theorem toNat_ofNat_of_le {n : ℕ} (h : n ≤ 128) : (UInt8.ofNat n).toNat = n :=
  UInt8.toNat_ofNat_of_lt (h.trans_lt (by decide))

/-- A length that an address can have stays one in an octet. -/
private theorem ofNat_le {n : ℕ} (h : n ≤ 128) : UInt8.ofNat n ≤ 128 := by
  rw [UInt8.le_iff_toNat_le, toNat_ofNat_of_le h]
  exact h

/-- Masking the last bits of the word clears them in the address. -/
theorem keepFirst_ofNat (a : Address) {n : ℕ} (h : n ≤ 128) :
    keepFirst a.bits (UInt8.ofNat n) = (a.clearAfter n).bits := by
  rw [keepFirst_eq _ (ofNat_le h), toNat_ofNat_of_le h]

/-- A prefix of no more than 128 bits may be made from the words of an address. -/
theorem new_ofNat (a : Address) {n : ℕ} (h : n ≤ 128) :
    (new a.bits (UInt8.ofNat n) : Except (Stop ε) PrefixWords) =
      .ok (ofPrefix (Prefix.ofAddress a n h)) := by
  rw [new, if_pos (ofNat_le h), keepFirst_ofNat a h]
  rfl

/-- Reading a bit string into words makes no mistake, and comes to what reading it comes to. -/
theorem ofBitString_eq (family : Family) (strict : Bool) (s : BitString) :
    ofBitString family strict s =
      ((Prefix.ofBitString family strict s).map ofPrefix).mapError Stop.error := by
  unfold ofBitString Prefix.ofBitString
  split_ifs with hlong
  · rfl
  · have hle : s.length ≤ 128 :=
      (BitString.length_le_width (Nat.le_of_not_lt hlong)).trans family.width_le
    have hnew (a : Address) : Prefix.new? a s.length = some (.ofAddress a s.length hle) :=
      dif_pos hle
    rw [shiftIn_eq, narrow_of_lt (hle.trans_lt (by decide))]
    simp only [hnew, bind, Except.bind, new_ofNat _ hle]
    have hsame (a b : Address) : a.bits ≠ b.bits ↔ a ≠ b := by
      rw [Ne, Ne, Address.mk.injEq]
    simp only [ofPrefix, hsame]
    split_ifs <;> rfl

/-- The words of a prefix fit a family if the prefix does. -/
theorem fits_ofPrefix_iff : fits family (ofPrefix p) = true ↔ p.length ≤ family.width := by
  have hlow (hshort : p.length ≤ 32) :
      p.address.bits &&& (BitVec.allOnes 128 >>> 32) = 0 := by
    apply BitVec.eq_of_getMsbD_eq
    intro i hi
    by_cases h : i < 32
    · simp only [BitVec.getMsbD_and, BitVec.getMsbD_ushiftRight, h]
      simp
    · simp only [BitVec.getMsbD_and, p.getMsbD_of_length_le (hshort.trans (Nat.le_of_not_lt h))]
      simp
  unfold fits
  simp only [toNat_length_ofPrefix, Bool.decide_and, Bool.and_eq_true, decide_eq_true_eq]
  refine ⟨And.left, fun hle => ⟨hle, ?_⟩⟩
  rintro ⟨rfl, hset⟩
  exact hset (hlow hle)

/-- The words of a prefix mean it in each family that it fits. -/
theorem toIpPrefix?_ofPrefix (family : Family) (p : Prefix) :
    (ofPrefix p).toIpPrefix? family = IpPrefix.new? family p := by
  unfold toIpPrefix?
  by_cases h : p.length ≤ family.width
  · have hsame : Prefix.new? ⟨(ofPrefix p).bits⟩ (ofPrefix p).length.toNat = some p := by
      rw [toNat_length_ofPrefix, Prefix.new?, dif_pos p.length_le]
      obtain ⟨address, length, -, hclear⟩ := p
      simp only [Prefix.ofAddress, ofPrefix, hclear]
    rw [if_pos (fits_ofPrefix_iff.mpr h), hsame, Option.bind_some]
  · rw [if_neg fun hfits => h (fits_ofPrefix_iff.mp hfits), IpPrefix.new?, dif_neg h]

end Reading

section Writing

/-- The words tell whether a length ends with an octet. -/
private theorem length_mod_eq_zero_iff (p : Prefix) :
    (ofPrefix p).length % 8 = 0 ↔ p.length % 8 = 0 := by
  rw [← UInt8.toNat_inj, UInt8.toNat_mod, toNat_length_ofPrefix]
  rfl

/-- The words tell how many octets a length fills. -/
private theorem toNat_length_div (p : Prefix) :
    ((ofPrefix p).length / 8).toNat = p.length / 8 := by
  rw [UInt8.toNat_div, toNat_length_ofPrefix]
  rfl

/-- The words tell how many bits of the last octet a length leaves, and how many octets it needs. -/
private theorem octets_and_bits_left (p : Prefix) :
    8 - (ofPrefix p).length % 8 = UInt8.ofNat (8 - p.length % 8) ∧
      ((ofPrefix p).length / 8 + 1).toNat = p.length / 8 + 1 := by
  have hle := p.length_le
  have hmod : ((ofPrefix p).length % 8).toNat = p.length % 8 := by
    rw [UInt8.toNat_mod, toNat_length_ofPrefix]
    rfl
  constructor
  · have hlt : (ofPrefix p).length % 8 ≤ 8 := by
      rw [UInt8.le_iff_toNat_le, hmod]
      exact (Nat.mod_lt _ (by decide)).le
    have hrest : (UInt8.ofNat (8 - p.length % 8)).toNat = 8 - p.length % 8 :=
      UInt8.toNat_ofNat_of_lt ((Nat.sub_le _ _).trans_lt (by decide))
    rw [← UInt8.toNat_inj, UInt8.toNat_sub_of_le _ _ hlt, hmod, hrest]
    rfl
  · rw [UInt8.toNat_add, toNat_length_div]
    exact Nat.mod_eq_of_lt (by change p.length / 8 + 1 < 256; omega)

/-- The content of a bit string holds the number of unused bits and the octets of the prefix. -/
theorem content_ofPrefix (p : Prefix) :
    (ofPrefix p).content = UInt8.ofNat p.toBitString.unused :: p.toBitString.octets := by
  have hunused : p.toBitString.unused = (8 - p.length % 8) % 8 := rfl
  have hoctets : p.toBitString.octets = p.address.octets.take ((p.length + 7) / 8) := rfl
  rw [content, hunused, hoctets]
  by_cases h : p.length % 8 = 0
  · have hcount : p.length / 8 = (p.length + 7) / 8 := by omega
    rw [if_pos ((length_mod_eq_zero_iff p).mpr h), toNat_length_div, hcount, h]
    rfl
  · obtain ⟨hrest, hdiv⟩ := octets_and_bits_left p
    have hcount : p.length / 8 + 1 = (p.length + 7) / 8 := by omega
    have hless : 8 - p.length % 8 = (8 - p.length % 8) % 8 := by omega
    rw [if_neg fun hzero => h ((length_mod_eq_zero_iff p).mp hzero), hrest, hdiv, hcount, ← hless]
    rfl

/-- The announced length is that of the content. -/
theorem contentLength_ofPrefix (p : Prefix) :
    (ofPrefix p).contentLength = (ofPrefix p).content.length := by
  rw [content_ofPrefix, List.length_cons, p.length_octets_toBitString]
  simp only [contentLength, length_mod_eq_zero_iff, toNat_length_ofPrefix]
  split_ifs <;> omega

end Writing

end SignedPrefixes.PrefixWords
