import SignedPrefixes.BitString
import SignedPrefixes.Family
import SignedPrefixes.IpAddress

/-!
# Address prefixes

A prefix is the first bits of an address. It is kept as an address that is zero
after those bits, together with their number, and covers all addresses that
start with them. Signed content encodes a prefix as the bit string of its bits.
-/

namespace SignedPrefixes

/-- The leading bits of an address. -/
structure Prefix where
  /-- The address, which is zero after the leading bits. -/
  address : Address
  /-- The number of leading bits. -/
  length : Nat
  length_le : length ≤ 128
  clearAfter_eq : address.clearAfter length = address
  deriving DecidableEq, Repr

namespace Prefix

/-- The first `length` bits of an address. -/
def ofAddress (a : Address) (length : Nat) (h : length ≤ 128) : Prefix :=
  ⟨a.clearAfter length, length, h, a.clearAfter_clearAfter length⟩

/-- The first `length` bits of an address, if it has that many. -/
def new? (a : Address) (length : Nat) : Option Prefix :=
  if h : length ≤ 128 then some (ofAddress a length h) else none

/-- The smallest address covered. -/
def min (p : Prefix) : Address := p.address

/-- The largest address covered. All bits after the leading ones are set, for a
short family too. -/
def max (p : Prefix) : Address := p.address.fillAfter p.length

/-- The octets that hold the leading bits, and the number of bits they leave unused. -/
def toBitString (p : Prefix) : BitString where
  octets := p.address.octets.take ((p.length + 7) / 8)
  unused := (8 - p.length % 8) % 8
  unused_le := by omega
  unused_eq_zero := by
    intro h
    have hlen := congrArg List.length h
    have hle := p.length_le
    simp only [List.length_take, Address.octets, Octets.length_ofNat, List.length_nil] at hlen
    omega

/-- Why a bit string is not a prefix of a family. -/
inductive BitsFault where
  /-- There are more octets than an address of the family has. -/
  | tooLong
  /-- Unused bits are set where this is not tolerated. -/
  | bitsBeyondLength
  /-- There are more bits than any address has. The first check leaves no such
  bit string over. -/
  | lengthOverflow
  deriving DecidableEq, Repr

/-- The wording of a fault. -/
def BitsFault.message : BitsFault → String
  | tooLong => "invalid prefix encoding: address too long for family"
  | bitsBeyondLength => "invalid prefix encoding: bits set beyond prefix length"
  | lengthOverflow => "invalid prefix encoding: prefix length out of range"

/-- Takes the bits of a bit string as a prefix of a family. Unused bits that are
set are an error if `strict`, and are cleared otherwise. -/
def ofBitString (family : Family) (strict : Bool) (s : BitString) : Except BitsFault Prefix :=
  if family.octetCount < s.octets.length then .error .tooLong
  else
    let a := Address.ofOctets s.octets
    match new? a s.length with
    | none => .error .lengthOverflow
    | some p => if strict ∧ p.address ≠ a then .error .bitsBeyondLength else .ok p

end Prefix

end SignedPrefixes
