import Mathlib
import SignedPrefixes.Record.Processing

/-!
# The steps of processing

Processing asks one thing after the other and stops at the first one that is wrong. Its
steps are listed here, each with the call that it makes and the rejection that it leads
to. An object that no step rejects comes with evidence for everything that is asked, and
the evidence says what the record is. Otherwise the first step that rejects decides.
-/

namespace SignedPrefixes

/-- A step of processing. -/
structure Step where
  /-- The call to the certificate side that is made, if any. -/
  call : Option Call
  /-- Why the object is rejected, if it is. -/
  rejection : Option Rejection
  deriving DecidableEq, Repr

namespace Step

/-- The calls that are made. -/
def calls (s : Step) : List Call := s.call.toList

/-- A step with a call before what it asks for. -/
def calling (c : Call) (s : Step) : Step := { s with call := some c }

/-- Something is looked for, and it is found or a failure says why not. -/
def finding {ε α : Type} (reason : ε → Rejection) (answer : Except ε α) : Step where
  call := none
  rejection := match answer with
    | .ok _ => none
    | .error failure => some (reason failure)

/-- Something must be true of what is known. -/
def requiring (p : Prop) [Decidable p] (rejection : Rejection) : Step where
  call := none
  rejection := if p then none else some rejection

/-- The certificate side is asked something and may object. -/
def asking {α : Type} (c : Call) (answer : Except Objection α) : Step :=
  calling c (finding .objection answer)

/-- The certificate is asked something, and what it answers may be malformed. -/
def inspecting {α : Type} (c : Call) (answer : Except String α) : Step :=
  calling c (finding (fun text => .objection (.inspection text)) answer)

variable {ε α : Type}

/-- A call is made in the step that it is put in front of. -/
@[simp] theorem calls_calling (c : Call) (s : Step) : (calling c s).calls = [c] := rfl

/-- A call does not change whether its step rejects. -/
@[simp] theorem rejection_calling (c : Call) (s : Step) :
    (calling c s).rejection = s.rejection := rfl

/-- Looking at an answer makes no call. -/
@[simp] theorem calls_finding (reason : ε → Rejection) (answer : Except ε α) :
    (finding reason answer).calls = [] := rfl

/-- Looking at an answer rejects unless there is a value. -/
@[simp] theorem rejection_finding_eq_none_iff {reason : ε → Rejection} {answer : Except ε α} :
    (finding reason answer).rejection = none ↔ ∃ a, answer = .ok a := by
  cases answer <;> simp [finding]

/-- A condition makes no call. -/
@[simp] theorem calls_requiring (p : Prop) [Decidable p] (rejection : Rejection) :
    (requiring p rejection).calls = [] := rfl

/-- A condition rejects unless it holds. -/
@[simp] theorem rejection_requiring_eq_none_iff {p : Prop} [Decidable p] {rejection : Rejection} :
    (requiring p rejection).rejection = none ↔ p := by
  simp [requiring]

end Step

/-- An answer is an identifier that is not empty. -/
def IsIdentified : (answer : Except String (Option String)) → Prop
  | .ok (some identifier) => identifier ≠ ""
  | _ => False

/-- An identifier that is there identifies if it is not empty. -/
theorem isIdentified_ok_iff {identifier : Option String} :
    IsIdentified (.ok identifier) ↔ ∃ s, identifier = some s ∧ s ≠ "" := by
  cases identifier <;> simp [IsIdentified]

instance : (answer : Except String (Option String)) → Decidable (IsIdentified answer)
  | .ok (some identifier) => inferInstanceAs (Decidable (identifier ≠ ""))
  | .ok none => isFalse id
  | .error _ => isFalse id

/-- The steps that a verified object goes through, up to the resources of its certificate. -/
def VerifiedObject.steps (policy : Policy) (verified : VerifiedObject) : List Step :=
  let certificate := verified.certificate
  [.inspecting .aia certificate.aia,
    .inspecting .aki certificate.aki,
    .inspecting .sia certificate.sia,
    .inspecting .ski certificate.ski,
    .requiring (IsIdentified certificate.aia ∧ IsIdentified certificate.aki ∧
      IsIdentified certificate.sia ∧ IsIdentified certificate.ski) .missingIdentifier,
    .inspecting .notBefore certificate.notBefore,
    .inspecting .notAfter certificate.notAfter,
    .finding .content (Content.decode policy verified.content),
    .calling .inherits (.requiring (certificate.inherits = false) .inheritedResources)]

/-- The steps that the resources of a certificate go through. -/
def Resources.steps (resources : Resources) : List Step :=
  [.requiring (resources.asBlocks ≠ []) .missingAsResources,
    .requiring (resources.ipRanges = []) .superfluousIpResources]

/-- The steps that an object goes through. What would come after an objection is left out if it
cannot be told. -/
def processSteps (verifier : Verifier) (policy : Policy) (label : String) (tal : TalId)
    (object : Octets) : List Step :=
  let verification := verifier.verify label object Oid.signedPrefixList
  .asking (.verify label Oid.signedPrefixList) verification ::
    match verification with
    | .error _ => []
    | .ok verified =>
      let answer := verifier.resources label tal verified.certificate
      verified.steps policy ++ .asking (.resources label tal) answer ::
        match answer with
        | .error _ => []
        | .ok resources => resources.steps

/-- No step asks the validator. -/
theorem validate_notMem_calls (verifier : Verifier) (policy : Policy) (label : String) (tal : TalId)
    (object : Octets) (label' : String) (resources : Resources) (r : Record) :
    ∀ s ∈ processSteps verifier policy label tal object,
      Call.validate label' resources r ∉ s.calls := by
  have hverified (verified : VerifiedObject) :
      ∀ s ∈ verified.steps policy, Call.validate label' resources r ∉ s.calls := by
    simp [VerifiedObject.steps, Step.inspecting]
  have hresources (resources' : Resources) :
      ∀ s ∈ resources'.steps, Call.validate label' resources r ∉ s.calls := by
    simp [Resources.steps]
  unfold processSteps
  refine List.forall_mem_cons.mpr ⟨by simp [Step.asking], ?_⟩
  split
  · exact List.forall_mem_nil _
  · refine List.forall_mem_append.mpr ⟨hverified _, List.forall_mem_cons.mpr ⟨?_, ?_⟩⟩
    · simp [Step.asking]
    · split
      · exact List.forall_mem_nil _
      · exact hresources _

/-- What is known of an object when no step has rejected it. -/
structure Evidence where
  /-- The object with its certificate. -/
  verified : VerifiedObject
  /-- Where the certificate of the issuer is found. -/
  aia : String
  /-- The key of the issuer. -/
  aki : String
  /-- Where the signed object is found. -/
  sia : String
  /-- The key of the certificate. -/
  ski : String
  /-- The start of the validity. -/
  notBefore : Time
  /-- The end of the validity. -/
  notAfter : Time
  /-- The decoded content. -/
  content : Content
  /-- The resources of the certificate. -/
  resources : Resources

namespace Evidence

/-- The evidence is what the certificate side and the content say of an object, and nothing
speaks against it. -/
structure Supports (e : Evidence) (verifier : Verifier) (policy : Policy) (label : String)
    (tal : TalId) (object : Octets) : Prop where
  verify_eq : verifier.verify label object Oid.signedPrefixList = .ok e.verified
  aia_eq : e.verified.certificate.aia = .ok (some e.aia)
  aki_eq : e.verified.certificate.aki = .ok (some e.aki)
  sia_eq : e.verified.certificate.sia = .ok (some e.sia)
  ski_eq : e.verified.certificate.ski = .ok (some e.ski)
  ne_empty : e.aia ≠ "" ∧ e.aki ≠ "" ∧ e.sia ≠ "" ∧ e.ski ≠ ""
  notBefore_eq : e.verified.certificate.notBefore = .ok e.notBefore
  notAfter_eq : e.verified.certificate.notAfter = .ok e.notAfter
  decode_eq : Content.decode policy e.verified.content = .ok e.content
  inherits_eq : e.verified.certificate.inherits = false
  resources_eq : verifier.resources label tal e.verified.certificate = .ok e.resources
  asBlocks_ne_nil : e.resources.asBlocks ≠ []
  ipRanges_eq_nil : e.resources.ipRanges = []

variable {e e' : Evidence} {verifier : Verifier} {policy : Policy} {label : String} {tal : TalId}
  {object : Octets}

/-- With evidence for every answer, the steps are those that follow from the evidence. -/
theorem Supports.processSteps_eq (h : e.Supports verifier policy label tal object) :
    processSteps verifier policy label tal object =
      .asking (.verify label Oid.signedPrefixList) (.ok e.verified) ::
        (e.verified.steps policy ++
          .asking (.resources label tal) (.ok e.resources) :: e.resources.steps) := by
  simp only [processSteps, h.verify_eq, h.resources_eq]

/-- No step rejects an object that there is evidence for. -/
theorem Supports.rejection_eq_none (h : e.Supports verifier policy label tal object) :
    ∀ s ∈ processSteps verifier policy label tal object, s.rejection = none := by
  rw [h.processSteps_eq]
  simp [VerifiedObject.steps, Resources.steps, Step.asking, Step.inspecting, isIdentified_ok_iff,
    h.aia_eq, h.aki_eq, h.sia_eq, h.ski_eq, h.ne_empty, h.notBefore_eq, h.notAfter_eq,
    h.decode_eq, h.inherits_eq, h.asBlocks_ne_nil, h.ipRanges_eq_nil]

/-- With evidence for every answer, the steps make all calls before the validation, in this
order. -/
theorem Supports.calls_eq (h : e.Supports verifier policy label tal object) :
    (processSteps verifier policy label tal object).flatMap Step.calls =
      [.verify label Oid.signedPrefixList, .aia, .aki, .sia, .ski, .notBefore, .notAfter,
        .inherits, .resources label tal] := by
  rw [h.processSteps_eq]
  rfl

/-- There is no more than one evidence for an object. -/
theorem Supports.unique (h : e.Supports verifier policy label tal object)
    (h' : e'.Supports verifier policy label tal object) : e = e' := by
  have hverified : e.verified = e'.verified := Except.ok.inj (h.verify_eq.symm.trans h'.verify_eq)
  cases e
  cases e'
  obtain rfl := hverified
  have haia := h.aia_eq.symm.trans h'.aia_eq
  have haki := h.aki_eq.symm.trans h'.aki_eq
  have hsia := h.sia_eq.symm.trans h'.sia_eq
  have hski := h.ski_eq.symm.trans h'.ski_eq
  have hnotBefore := h.notBefore_eq.symm.trans h'.notBefore_eq
  have hnotAfter := h.notAfter_eq.symm.trans h'.notAfter_eq
  have hcontent := h.decode_eq.symm.trans h'.decode_eq
  have hresources := h.resources_eq.symm.trans h'.resources_eq
  simp_all

/-- The record that the validator is asked about. It is not valid yet. -/
def record (e : Evidence) (tal : TalId) : Record where
  valid := false
  asn := e.content.asn
  tal := tal
  prefixes := e.content.prefixes
  expires := e.notAfter
  signingTime := some e.verified.signingTime
  notBefore := some e.notBefore
  notAfter := some e.notAfter
  aia := e.aia
  aki := e.aki
  ski := e.ski
  sia := some e.sia

/-- The verdict on the record. -/
def verdict (e : Evidence) (validator : Validator) (label : String) (tal : TalId) : Verdict :=
  validator label e.resources (e.record tal)

/-- The record with the verdict on it. -/
def judged (e : Evidence) (validator : Validator) (label : String) (tal : TalId) : Record :=
  { e.record tal with valid := (e.verdict validator label tal).valid }

/-- What the log says of the verdict. -/
def lines (e : Evidence) (validator : Validator) (label : String) (tal : TalId) : List LogLine :=
  (e.verdict validator label tal).log ++
    if (e.verdict validator label tal).valid then []
    else [⟨.warn, label ++ ": SPL for " ++ toString e.content.asn ++
      " failed validation, keeping it as invalid"⟩]

/-- A record that is found valid adds no line to those of the validation. -/
theorem lines_of_valid (e : Evidence) {validator : Validator} {label : String} {tal : TalId}
    (h : (e.verdict validator label tal).valid = true) :
    e.lines validator label tal = (e.verdict validator label tal).log := by
  simp [lines, h]

/-- A record that is not found valid adds one line that says so. -/
theorem lines_of_not_valid (e : Evidence) {validator : Validator} {label : String} {tal : TalId}
    (h : (e.verdict validator label tal).valid = false) :
    e.lines validator label tal = (e.verdict validator label tal).log ++
      [⟨.warn, label ++ ": SPL for " ++ toString e.content.asn ++
        " failed validation, keeping it as invalid"⟩] := by
  simp [lines, h]

/-- What the evidence comes to: the validator is asked once and last, and its verdict is all that
it changes. -/
def outcome (e : Evidence) (validator : Validator) (label : String) (tal : TalId) : Outcome where
  result := .ok (e.verified.certificate, e.judged validator label tal)
  trace :=
    { calls :=
        [.verify label Oid.signedPrefixList, .aia, .aki, .sia, .ski, .notBefore, .notAfter,
          .inherits, .resources label tal, .validate label e.resources (e.record tal)]
      log := e.lines validator label tal }

end Evidence

end SignedPrefixes
