import SignedPrefixes.Asn
import SignedPrefixes.IpPrefix

/-!
# The content of a signed prefix list

The content names an AS number and the prefixes it may originate. The prefixes
form one list in strictly ascending order, so the IPv4 prefixes come first.
-/

namespace SignedPrefixes

/-- The signed content: an AS number and its prefixes. -/
structure Content where
  /-- The AS number that the list is about. -/
  asn : Asn
  /-- The prefixes of both families. -/
  prefixes : List IpPrefix
  deriving DecidableEq, Repr

namespace Content

/-- The content with the given prefixes, which may come in any order and more than once. -/
def ofPrefixes (asn : Asn) (prefixes : List IpPrefix) : Content :=
  ⟨asn, (prefixes.mergeSort fun p q => p ≤ q).eraseReps⟩

/-- The IPv4 prefixes. -/
def ipv4Prefixes (c : Content) : List IpPrefix := c.prefixes.takeWhile (·.family = .ipv4)

/-- The IPv6 prefixes. -/
def ipv6Prefixes (c : Content) : List IpPrefix := c.prefixes.dropWhile (·.family = .ipv4)

/-- The two parts of the list of prefixes make up the whole of it. -/
theorem ipv4Prefixes_append_ipv6Prefixes (c : Content) :
    c.ipv4Prefixes ++ c.ipv6Prefixes = c.prefixes := List.takeWhile_append_dropWhile

end Content

/-- How content is checked. -/
structure Policy where
  /-- Whether to insist on DER. This excludes a version that is written out and
  set bits beyond the length of a prefix. -/
  strict : Bool
  /-- The number of prefixes from which on content is refused. -/
  maxPrefixes : Nat
  deriving DecidableEq, Repr

namespace Policy

/-- The number of prefixes that is refused unless another one is given. -/
def defaultMaxPrefixes : Nat := 200000

/-- Insists on DER and the usual number of prefixes. -/
def default : Policy := ⟨true, defaultMaxPrefixes⟩

instance : Inhabited Policy := ⟨default⟩

end Policy

end SignedPrefixes
