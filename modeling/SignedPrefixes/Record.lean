import SignedPrefixes.Content
import SignedPrefixes.Provenance
import SignedPrefixes.Time

/-!
# Records of signed prefix lists

A record is what is known of a signed prefix list once its envelope, content and
certificate have been checked. It keeps the prefixes together with the identifiers
and times of the certificate that signed them.
-/

namespace SignedPrefixes

/-- A checked signed prefix list. A record that comes from another process lacks
the times of the certificate and the place of the object. -/
structure Record where
  /-- Whether the AS number may be vouched for by the certificate. -/
  valid : Bool
  /-- The AS number that the list is about. -/
  asn : Asn
  /-- The trust anchor that the list was found under. -/
  tal : TalId
  /-- The prefixes in strictly ascending order. -/
  prefixes : List IpPrefix
  /-- The time from which on the list is no longer good. -/
  expires : Time
  /-- The time of the signature. -/
  signingTime : Option Time
  /-- The start of the validity of the certificate. -/
  notBefore : Option Time
  /-- The end of the validity of the certificate. -/
  notAfter : Option Time
  /-- Where the certificate of the issuer is found. -/
  aia : String
  /-- The key of the issuer. -/
  aki : String
  /-- The key of the certificate. -/
  ski : String
  /-- Where the signed object is found. -/
  sia : Option String
  deriving DecidableEq, Repr

namespace Record

/-- Replaces the expiry, for instance by the earliest one on the way to the trust
anchor. -/
def withExpires (r : Record) (expires : Time) : Record := { r with expires }

/-- The content that the record was made from. -/
def content (r : Record) : Content := ⟨r.asn, r.prefixes⟩

end Record

end SignedPrefixes
