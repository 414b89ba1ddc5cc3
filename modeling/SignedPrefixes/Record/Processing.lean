import SignedPrefixes.Certificate
import SignedPrefixes.Content.Reader

/-!
# Processing signed prefix lists

Processing turns a signed object into a record. It asks the certificate side for
what it needs, one thing after the other, and stops at the first thing that is
wrong. The calls to the certificate side and the log lines are kept in their
order, also if processing fails. A record that the validator does not find valid
is kept and marked.
-/

namespace SignedPrefixes

/-- Why a signed prefix list is rejected. -/
inductive Rejection where
  /-- The certificate side objects. -/
  | objection (o : Objection)
  /-- The content cannot be read. -/
  | content (failure : ContentFailure)
  /-- One of the four identifiers of the certificate is absent or empty. -/
  | missingIdentifier
  /-- The certificate takes over resources of its issuer. -/
  | inheritedResources
  /-- The certificate has no AS numbers. -/
  | missingAsResources
  /-- The certificate has addresses. -/
  | superfluousIpResources
  deriving DecidableEq, Repr

namespace Rejection

/-- The wording of a rejection. -/
def message : Rejection → String
  | objection o => o.message
  | content failure => failure.message
  | missingIdentifier =>
    "RFC 6487 section 4.8: missing AIA, AKI, SIA, or SKI X509 extension"
  | inheritedResources => "inherit elements not allowed in EE cert"
  | missingAsResources => "AS Resources extension missing"
  | superfluousIpResources => "superfluous IP Resources extension present"

/-- Whether something could not be decoded. -/
def isDecoding : Rejection → Bool
  | objection (.decoding _ _) => true
  | content _ => true
  | _ => false

end Rejection

/-- A rejection of an object with a label. -/
structure LabeledRejection where
  /-- The label of the object. -/
  label : String
  /-- Why it is rejected. -/
  reason : Rejection
  deriving DecidableEq, Repr

/-- The wording of a rejection, which starts with the label. -/
def LabeledRejection.message (e : LabeledRejection) : String := e.label ++ ": " ++ e.reason.message

/-- A call to the certificate side. -/
inductive Call where
  | verify (label : String) (contentType : Oid)
  | aia
  | aki
  | sia
  | ski
  | notBefore
  | notAfter
  | inherits
  | resources (label : String) (tal : TalId)
  | validate (label : String) (resources : Resources) (record : Record)
  deriving DecidableEq, Repr

/-- What happened during processing. -/
structure Trace where
  /-- The calls to the certificate side, the first one first. -/
  calls : List Call
  /-- The log lines, the first one first. -/
  log : List LogLine
  deriving DecidableEq, Repr

/-- A step of processing, which may reject the object and leaves a trace. -/
abbrev Process (α : Type) := ExceptT Rejection (StateM Trace) α

namespace Process

/-- Notes a call. -/
def call (c : Call) : Process Unit := modify fun t => { t with calls := t.calls ++ [c] }

/-- Adds lines to the log. -/
def log (lines : List LogLine) : Process Unit := modify fun t => { t with log := t.log ++ lines }

/-- Goes on with an answer of the certificate side, or rejects the object. -/
def accept {α : Type} : Except Objection α → Process α
  | .ok a => pure a
  | .error o => throw (.objection o)

/-- Asks the certificate something. -/
def ask {α : Type} (c : Call) (answer : Except String α) : Process α := do
  call c
  accept (answer.mapError .inspection)

end Process

/-- An identifier, unless it is empty. -/
def presentIdentifier (s : Option String) : Option String := s.filter (· ≠ "")

open Process in
/-- Checks an object and makes a record of it. -/
def processObject (verifier : Verifier) (validator : Validator) (policy : Policy)
    (label : String) (tal : TalId) (object : Octets) : Process (Certificate × Record) := do
  call (.verify label Oid.signedPrefixList)
  let verified ← accept (verifier.verify label object Oid.signedPrefixList)
  let certificate := verified.certificate
  let aia ← ask .aia certificate.aia
  let aki ← ask .aki certificate.aki
  let sia ← ask .sia certificate.sia
  let ski ← ask .ski certificate.ski
  match presentIdentifier aia, presentIdentifier aki, presentIdentifier sia,
      presentIdentifier ski with
  | some aia, some aki, some sia, some ski =>
    let notBefore ← ask .notBefore certificate.notBefore
    let notAfter ← ask .notAfter certificate.notAfter
    let content ← match Content.decode policy verified.content with
      | .ok content => pure content
      | .error failure => throw (.content failure)
    call .inherits
    if certificate.inherits then throw .inheritedResources
    call (.resources label tal)
    let resources ← accept (verifier.resources label tal certificate)
    if resources.asBlocks.isEmpty then throw .missingAsResources
    if !resources.ipRanges.isEmpty then throw .superfluousIpResources
    let record : Record :=
      { valid := false
        asn := content.asn
        tal
        prefixes := content.prefixes
        expires := notAfter
        signingTime := some verified.signingTime
        notBefore := some notBefore
        notAfter := some notAfter
        aia, aki, ski
        sia := some sia }
    call (.validate label resources record)
    let verdict := validator label resources record
    log verdict.log
    if !verdict.valid then
      log [⟨.warn, label ++ ": SPL for " ++ toString record.asn ++
        " failed validation, keeping it as invalid"⟩]
    return (certificate, { record with valid := verdict.valid })
  | _, _, _, _ => throw .missingIdentifier

/-- What processing an object comes to. -/
structure Outcome where
  /-- The certificate and the record, or why the object is rejected. -/
  result : Except LabeledRejection (Certificate × Record)
  /-- What happened on the way. -/
  trace : Trace

/-- Processes an object. A rejection is logged and names the object. -/
def process (verifier : Verifier) (validator : Validator) (policy : Policy) (label : String)
    (tal : TalId) (object : Octets) : Outcome :=
  match (processObject verifier validator policy label tal object).run ⟨[], []⟩ with
  | (.ok result, trace) => ⟨.ok result, trace⟩
  | (.error reason, trace) =>
    let line : LogLine := ⟨.debug, label ++ ": " ++ reason.message⟩
    ⟨.error ⟨label, reason⟩, { trace with log := trace.log ++ [line] }⟩

end SignedPrefixes
