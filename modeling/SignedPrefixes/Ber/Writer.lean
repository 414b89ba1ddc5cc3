import SignedPrefixes.Ber.Tag
import SignedPrefixes.BitString

/-!
# Writing values in DER

DER leaves no choice in how a value is written: lengths and integers take the
fewest octets, and unused bits are zero. The functions here return the whole
encoding of a value, with its tag and length.
-/

namespace SignedPrefixes.Der

open Ber

/-- The octets of a length: one below 128, else a count and the fewest octets that
hold the length. -/
def lengthOctets (n : Nat) : Octets :=
  if n < 128 then [UInt8.ofNat n]
  else
    let width := n.log2 / 8 + 1
    UInt8.ofNat (128 + width) :: Octets.ofNat width n

/-- A primitive value with the given content. -/
def primitive (tag : Tag) (content : Octets) : Octets :=
  tag :: (lengthOctets content.length ++ content)

/-- A value constructed from the given encodings. -/
def constructed (tag : Tag) (content : Octets) : Octets :=
  primitive (tag ||| Tag.constructedBit) content

/-- A sequence of the given encodings. -/
def sequence (content : Octets) : Octets := constructed Tag.sequence content

/-- The number of octets that hold a number and a sign bit above it. -/
def signedWidth (n : Nat) : Nat := (n.log2 + 1) / 8 + 1

/-- The content of an integer: the fewest octets of its two's complement. -/
def integerOctets : Int → Octets
  | .ofNat n => Octets.ofNat (signedWidth n) n
  | .negSucc n => (Octets.ofNat (signedWidth n) n).map (~~~ ·)

/-- An integer. -/
def integer (n : Int) : Octets := primitive Tag.integer (integerOctets n)

/-- An octet string. -/
def octetString (os : Octets) : Octets := primitive Tag.octetString os

/-- A bit string. -/
def bitString (s : BitString) : Octets :=
  primitive Tag.bitString (UInt8.ofNat s.unused :: s.octets)

end SignedPrefixes.Der
