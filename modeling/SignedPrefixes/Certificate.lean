import SignedPrefixes.Log
import SignedPrefixes.Record

/-!
# The certificate side

Verifying the envelope of a signed object, checking its signature and looking
into its certificate are left to a verifier. Whether a list is valid for the
resources of its certificate is left to a validator. Both are values here, so
that statements can range over all of them.
-/

namespace SignedPrefixes

/-- An object identifier, given by its arcs. -/
structure Oid where
  /-- The numbers on the way from the root. -/
  arcs : List Nat
  deriving DecidableEq, Repr

namespace Oid

instance : ToString Oid := ⟨fun oid => ".".intercalate (oid.arcs.map toString)⟩

/-- The content type of signed prefix lists. -/
def signedPrefixList : Oid := ⟨[1, 2, 840, 113549, 1, 9, 16, 1, 51]⟩

end Oid

/-- The resources of a certificate. -/
structure Resources where
  /-- The AS numbers. -/
  asBlocks : List AsBlock
  /-- The addresses. -/
  ipRanges : List IpRange
  deriving DecidableEq, Repr

/-- Why the certificate side rejects an object. -/
inductive Objection where
  /-- Something cannot be decoded. -/
  | decoding (text : String) (position : Nat)
  /-- The object or its certificate is malformed. -/
  | inspection (text : String)
  /-- The object fails a check. -/
  | verification (text : String)
  deriving DecidableEq, Repr

/-- The wording of an objection. -/
def Objection.message : Objection → String
  | decoding text position => text ++ " (at position " ++ toString position ++ ")"
  | inspection text => text
  | verification text => text

/-- What a certificate says when it is asked. An extension is absent, present or
malformed, and in the last case there is a text that says why. -/
structure Certificate where
  /-- Where the certificate of the issuer is found. -/
  aia : Except String (Option String)
  /-- The key of the issuer. -/
  aki : Except String (Option String)
  /-- Where the signed object is found. -/
  sia : Except String (Option String)
  /-- The key of the certificate. -/
  ski : Except String (Option String)
  /-- The start of the validity. -/
  notBefore : Except String Time
  /-- The end of the validity. -/
  notAfter : Except String Time
  /-- Whether some resources are those of the issuer. -/
  inherits : Bool

/-- A signed object whose envelope has been verified. -/
structure VerifiedObject where
  /-- The certificate that signed the object. -/
  certificate : Certificate
  /-- The signed content, still encoded. -/
  content : Octets
  /-- The time of the signature. -/
  signingTime : Time

/-- A verifier of signed objects and their certificates. -/
structure Verifier where
  /-- Verifies the envelope of an object that has a label and should hold content of
  the given type. -/
  verify : (label : String) → (object : Octets) → (contentType : Oid) →
    Except Objection VerifiedObject
  /-- Checks a certificate for a trust anchor and gives its resources. -/
  resources : (label : String) → TalId → Certificate → Except Objection Resources

/-- What a validator finds. -/
structure Verdict where
  /-- Whether the record is valid for the resources. -/
  valid : Bool
  /-- What the validator has to say. -/
  log : List LogLine
  deriving DecidableEq, Repr

/-- Decides whether a record is valid for the resources of its certificate. -/
abbrev Validator := (label : String) → Resources → Record → Verdict

namespace Validator

/-- Asks for the AS number to be among the resources. -/
def asCoverage : Validator := fun label resources r =>
  if resources.asBlocks.any (r.asn ∈ ·) then ⟨true, []⟩
  else
    ⟨false, [⟨.debug, label ++ ": " ++ toString r.asn ++
      " not covered by certificate AS resources"⟩]⟩

/-- Finds the same for every record. -/
def constant (valid : Bool) : Validator := fun _ _ _ => ⟨valid, []⟩

end Validator

end SignedPrefixes
