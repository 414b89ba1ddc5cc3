import SignedPrefixes.Content.Reader
import SignedPrefixes.Content.Writer
import SignedPrefixes.Proofs.Ber.Primitive
import SignedPrefixes.Proofs.PrefixWords

/-!
# Bit strings that stand for prefixes

A bit string stands for a prefix if it is not too long, and of its last octet only the bits
that are used count. Clearing the others gives the bit string that is written for the prefix,
so bit strings with none of them set and prefixes are in one-to-one correspondence.
-/

namespace SignedPrefixes

open Ber Ber.Reader StateExcept

namespace Prefix

variable {family : Family} {strict : Bool} {s : BitString} {p : Prefix}

/-- A bit string is read if it is not too long and has no unused bits set that must be zero. -/
theorem exists_ofBitString_iff :
    (∃ p, ofBitString family strict s = .ok p) ↔
      s.octets.length ≤ family.octetCount ∧ (strict = true → s.hasUnusedBits = false) := by
  constructor
  · rintro ⟨p, hp⟩
    refine ⟨(ofBitString_eq_ok_iff.mp hp).1, ?_⟩
    rintro rfl
    rw [← toBitString_of_ofBitString hp]
    exact p.hasUnusedBits_toBitString
  · rintro ⟨hfits, hunused⟩
    obtain ⟨p, hp⟩ := exists_ofBitString hfits
    obtain ⟨-, hlength, haddress, -⟩ := ofBitString_eq_ok_iff.mp hp
    refine ⟨p, ofBitString_eq_ok_iff.mpr ⟨hfits, hlength, haddress, fun hstrict => ?_⟩⟩
    rw [haddress, BitString.clearAfter_ofOctets (hfits.trans family.octetCount_le),
      BitString.clearedOctets_eq (hunused hstrict)]

/-- The bit string that is written for a prefix is announced with its length. -/
theorem encode_eq (p : Prefix) :
    p.encode = Der.primitive Tag.bitString (PrefixWords.ofPrefix p).content := by
  rw [PrefixWords.content_ofPrefix]
  rfl

/-- A prefix that is written is read again as that prefix. -/
theorem reader?_encode (hlength : p.length ≤ family.width) (enclosing : ℕ) (rest : Octets) :
    (reader? .der family true enclosing).runOn (p.encode ++ rest) = .ok (some p, rest) := by
  have htake : (Input.ofOctets (p.encode ++ rest)).Takes (Der.bitString p.toBitString)
      ⟨rest, 0 + p.encode.length, none⟩ := ⟨rfl, rfl, rfl, nofun⟩
  have hshort : p.toBitString.octets.length + 1 < 2 ^ 32 := by
    have hle := p.length_le
    rw [p.length_octets_toBitString]
    omega
  have hbits : outcome ((bitString? .der : Reader Refusal _) _) = _ :=
    outcome_bitString? hshort htake
  rw [p.hasUnusedBits_toBitString, if_neg (by simp)] at hbits
  unfold Reader.runOn reader?
  rw [bind_of_ok (outcome_eq_ok_iff.mp hbits)]
  dsimp only
  rw [ofBitString_toBitString hlength]
  rfl

/-- The codec of prefixes. A bit string is read exactly if it is not too long for the family
and, if that is asked for, has no unused bits set. The prefix has the bits that are used, and
what is written for it are the octets with the other bits cleared, announced with their number.
Words of a machine come to the same. A prefix that fits a family is read in it as it was
written. -/
theorem bitString_codec (family : Family) (strict : Bool) (s : BitString) :
    ((∃ p, ofBitString family strict s = .ok p) ↔
      s.octets.length ≤ family.octetCount ∧ (strict = true → s.hasUnusedBits = false)) ∧
    (∀ p, ofBitString family strict s = .ok p →
      p.length = 8 * s.octets.length - s.unused ∧
      p.address.octets = s.clearedOctets ++ List.replicate (16 - s.octets.length) 0 ∧
      (PrefixWords.ofPrefix p).content = UInt8.ofNat s.unused :: s.clearedOctets ∧
      (PrefixWords.ofPrefix p).contentLength = (PrefixWords.ofPrefix p).content.length ∧
      p.encode = Der.primitive Tag.bitString (PrefixWords.ofPrefix p).content) ∧
    (∀ p, ofBitString family true s = .ok p → ofBitString family false s = .ok p) ∧
    PrefixWords.ofBitString family strict s =
      ((ofBitString family strict s).map PrefixWords.ofPrefix).mapError Stop.error ∧
    ∀ p : Prefix, p.length ≤ family.width → ∀ enclosing rest,
      (reader? .der family true enclosing).runOn (p.encode ++ rest) = .ok (some p, rest) := by
  refine ⟨exists_ofBitString_iff, fun p hp => ⟨?_, octets_of_ofBitString hp, ?_,
    PrefixWords.contentLength_ofPrefix p, p.encode_eq⟩, fun p => ofBitString_of_imp nofun,
    PrefixWords.ofBitString_eq family strict s, fun p => reader?_encode⟩
  · exact (ofBitString_eq_ok_iff.mp hp).2.1
  · obtain ⟨hunused, hoctets⟩ := toBitString_eq_of_ofBitString hp
    rw [PrefixWords.content_ofPrefix, hunused, hoctets]

/-- Of 10.0.1.0/23 with the unused bit set, strict reading makes an error, and other reading
makes the prefix 10.0.0.0/23, which is written without that bit. -/
theorem bitString_codec_cleared :
    ∃ s : BitString, s.octets = [10, 0, 1] ∧ (¬∃ p, ofBitString .ipv4 true s = .ok p) ∧
      ∃ p, ofBitString .ipv4 false s = .ok p ∧ p.length = 23 ∧
        (PrefixWords.ofPrefix p).content = [1, 10, 0, 0] ∧
        (reader? .der .ipv4 true 0).runOn (p.encode ++ [5, 0]) = .ok (some p, [5, 0]) := by
  let s : BitString := ⟨[10, 0, 1], 1, by decide, by decide⟩
  obtain ⟨hstrict, -⟩ := bitString_codec .ipv4 true s
  obtain ⟨hexists, hread, -, -, hback⟩ := bitString_codec .ipv4 false s
  obtain ⟨p, hp⟩ := hexists.mpr ⟨by decide, by decide⟩
  obtain ⟨hlength, -, hcontent, -, -⟩ := hread p hp
  refine ⟨s, rfl, fun h => absurd ((hstrict.mp h).2 rfl) (by decide), p, hp, hlength, ?_, ?_⟩
  · rw [hcontent]
    decide
  · exact hback p (by rw [hlength]; decide) 0 [5, 0]

end Prefix

end SignedPrefixes
