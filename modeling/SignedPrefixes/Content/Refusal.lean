import SignedPrefixes.Ber.Failure
import SignedPrefixes.Prefix

/-!
# Refusals of content

Content that is encoded well may still break the rules for signed prefix lists.
Each rule has a refusal of its own.
-/

namespace SignedPrefixes

/-- Why a value of signed content is refused. -/
inductive Refusal where
  /-- The AS number is no integer of 32 bits. -/
  | malformedAsn
  /-- The octets name no address family. -/
  | unknownFamily
  /-- The version is not zero. -/
  | unsupportedVersion
  /-- The version is written out although it has its default value. -/
  | explicitVersion
  /-- There are more than two blocks. -/
  | manyBlocks
  /-- There is a second block of this family. -/
  | repeatedFamily (family : Family)
  /-- An IPv4 block comes after an IPv6 block. -/
  | familyOrder
  /-- A bit string is no prefix of its family. -/
  | bits (fault : Prefix.BitsFault)
  /-- A prefix is too long for its family. The check of its bit string leaves no
  such prefix over. -/
  | misfit
  /-- A prefix does not come after the one before it. -/
  | unsorted
  /-- There are too many prefixes. -/
  | manyPrefixes
  /-- A block has no prefixes. -/
  | emptyBlock
  /-- There are octets after the content. -/
  | trailingOctets
  deriving DecidableEq, Repr

/-- The wording of a refusal. -/
def Refusal.message : Refusal → String
  | malformedAsn => "malformed AS identifier"
  | unknownFamily => "unknown address family"
  | unsupportedVersion => "unsupported SignedPrefixList version"
  | explicitVersion => "incorrect encoding for SignedPrefixList version 0"
  | manyBlocks => "more than two AddressFamilyPrefixes"
  | repeatedFamily .ipv4 => "addressFamilyIPv4 appeared twice"
  | repeatedFamily .ipv6 => "addressFamilyIPv6 appeared twice"
  | familyOrder => "invalid sorting, IPv6 before IPv4"
  | bits fault => fault.message
  | misfit => "invalid prefix encoding"
  | unsorted => "invalid addressPrefixes sorting"
  | manyPrefixes => "too many addressPrefixes entries"
  | emptyBlock => "empty AddressFamilyPrefixes"
  | trailingOctets => "trailing garbage in eContent"

/-- A failure to read signed content. -/
abbrev ContentFailure := Ber.Failure Refusal

/-- The wording of a failure to read signed content. -/
def ContentFailure.message (f : ContentFailure) : String := Ber.Failure.message Refusal.message f

end SignedPrefixes
