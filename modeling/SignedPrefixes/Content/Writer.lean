import SignedPrefixes.Ber.Writer
import SignedPrefixes.Content

/-!
# Writing content in DER

Content is a sequence of the AS number and of one block for each family that has
prefixes. A block names its family and lists the bits of its prefixes. The
version has its default value and is left out.
-/

namespace SignedPrefixes

/-- An AS number as an integer. -/
def Asn.encode (asn : Asn) : Octets := Der.integer asn.number.toNat

/-- A family as an octet string. -/
def Family.encode (f : Family) : Octets := Der.octetString f.octets

/-- A prefix as a bit string. -/
def Prefix.encode (p : Prefix) : Octets := Der.bitString p.toBitString

namespace Content

/-- The block of a family, which is left out if it has no prefixes. -/
def encodeBlock (family : Family) (prefixes : List IpPrefix) : Octets :=
  if prefixes.isEmpty then []
  else
    Der.sequence (family.encode ++ Der.sequence (prefixes.flatMap fun p => p.bits.encode))

/-- The encoding of content. -/
def encode (c : Content) : Octets :=
  Der.sequence
    (c.asn.encode ++
      Der.sequence (encodeBlock .ipv4 c.ipv4Prefixes ++ encodeBlock .ipv6 c.ipv6Prefixes))

end Content

end SignedPrefixes
