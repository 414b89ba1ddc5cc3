import SignedPrefixes.IpPrefix
import SignedPrefixes.Misuse

/-!
# Prefixes in machine words

The leading bits of an address fit a word of 128 bits, and their number fits an octet. All
there is to do with prefixes can be done by shifting and masking the word. That comes to what
is meant only if no number is cut down to an octet that does not hold it, and if no prefix is
made with more bits than the word has.
-/

namespace SignedPrefixes

/-- A prefix as a machine keeps it. -/
structure PrefixWords where
  /-- The leading bits from the top, and zeros after them. -/
  bits : BitVec 128
  /-- The number of leading bits. -/
  length : UInt8
  deriving DecidableEq, Repr

namespace PrefixWords

variable {ε : Type}

/-- The words of a prefix. -/
def ofPrefix (p : Prefix) : PrefixWords := ⟨p.address.bits, UInt8.ofNat p.length⟩

/-- Shifts an octet into a word from below. -/
def shiftOctet (bits : BitVec 128) (o : UInt8) : BitVec 128 :=
  (bits <<< 8) ||| o.toBitVec.setWidth 128

/-- Shifts octets into a word and then moves them to the top. -/
def shiftIn (os : Octets) : BitVec 128 :=
  Nat.repeat (· <<< 8) (16 - os.length) (os.foldl shiftOctet 0)

/-- Masks all but the first `length` bits. A word is never shifted by its whole width. -/
def keepFirst (bits : BitVec 128) (length : UInt8) : BitVec 128 :=
  if 128 ≤ length then bits
  else if length = 0 then 0
  else bits &&& ~~~(BitVec.allOnes 128 >>> length.toNat)

/-- Sets all but the first `length` bits. -/
def fillRest (bits : BitVec 128) (length : UInt8) : BitVec 128 :=
  if 128 ≤ length then bits else bits ||| (BitVec.allOnes 128 >>> length.toNat)

/-- The octet that holds a number. -/
def narrow (n : Nat) : Except (Stop ε) UInt8 :=
  if n < 256 then .ok (UInt8.ofNat n) else .error (.misuse .cutsNumber)

/-- The first `length` bits, of which there must not be more than 128. -/
def new (bits : BitVec 128) (length : UInt8) : Except (Stop ε) PrefixWords :=
  if length ≤ 128 then .ok ⟨keepFirst bits length, length⟩ else .error (.misuse .longPrefix)

/-- The smallest address covered. -/
def lowest (p : PrefixWords) : BitVec 128 := p.bits

/-- The largest address covered. -/
def highest (p : PrefixWords) : BitVec 128 := fillRest p.bits p.length

/-- Takes the bits of a bit string as a prefix of a family. -/
def ofBitString (family : Family) (strict : Bool) (s : BitString) :
    Except (Stop Prefix.BitsFault) PrefixWords := do
  if family.octetCount < s.octets.length then throw (.error .tooLong)
  let bits := shiftIn s.octets
  let p ← new bits (← narrow s.length)
  if strict ∧ p.bits ≠ bits then throw (.error .bitsBeyondLength)
  return p

/-- Whether a prefix fits a family. The low bits of a prefix of the short family are zero. -/
def fits (family : Family) (p : PrefixWords) : Bool :=
  p.length.toNat ≤ family.width ∧
    ¬(family = .ipv4 ∧ p.bits &&& (BitVec.allOnes 128 >>> 32) ≠ 0)

/-- The words as a prefix of a family, if they fit it. -/
def toIpPrefix? (family : Family) (p : PrefixWords) : Option IpPrefix :=
  if p.fits family then (Prefix.new? ⟨p.bits⟩ p.length.toNat).bind (IpPrefix.new? family) else none

/-- The announced number of octets of the content of a bit string. -/
def contentLength (p : PrefixWords) : Nat :=
  if p.length % 8 = 0 then p.length.toNat / 8 + 1 else p.length.toNat / 8 + 2

/-- The content of a bit string: the number of unused bits, then the octets that hold the
leading bits. -/
def content (p : PrefixWords) : Octets :=
  let octets := (Address.mk p.bits).octets
  if p.length % 8 = 0 then 0 :: octets.take (p.length / 8).toNat
  else (8 - p.length % 8) :: octets.take (p.length / 8 + 1).toNat

end PrefixWords

end SignedPrefixes
