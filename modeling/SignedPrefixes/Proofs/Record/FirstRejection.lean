import SignedPrefixes.Proofs.Content.Canonical
import SignedPrefixes.Proofs.Record.Steps

/-!
# The first rejection decides

Processing goes through its steps in their order. Each step adds its call to the trace
and either ends processing or goes on, so a run ends with the first rejection, and the
calls made are those of the steps up to it. A run without a rejection has found evidence
for everything that is asked, and ends with the verdict of the validator.
-/

namespace SignedPrefixes

variable {α β : Type}

/-- The trace after further calls. -/
def Trace.withCalls (t : Trace) (calls : List Call) : Trace := { t with calls := t.calls ++ calls }

/-- No calls leave a trace as it is. -/
@[simp] theorem Trace.withCalls_nil (t : Trace) : t.withCalls [] = t := by
  simp [withCalls]

/-- Calls are put behind those that were made before. -/
@[simp] theorem Trace.withCalls_withCalls (t : Trace) (calls calls' : List Call) :
    (t.withCalls calls).withCalls calls' = t.withCalls (calls ++ calls') := by
  simp [withCalls]

namespace Process

/-- A program goes through steps. It ends at a step that rejects, and goes on as what is left of
it otherwise. What is left after all steps is an end. -/
inductive GoesThrough (IsEnd : Process α → Prop) : Process α → List Step → Prop where
  /-- No step is left. -/
  | done {x : Process α} (h : IsEnd x) : GoesThrough IsEnd x []
  /-- The first step does not reject. Its calls are made, and the program goes through the
  others. -/
  | accepted {x y : Process α} {s : Step} {steps : List Step} (hs : s.rejection = none)
      (hx : ∀ t, x.run t = y.run (t.withCalls s.calls)) (hy : GoesThrough IsEnd y steps) :
      GoesThrough IsEnd x (s :: steps)
  /-- The first step rejects after its calls, and the others do not matter. -/
  | rejected {x : Process α} {s : Step} {steps : List Step} {reason : Rejection}
      (hs : s.rejection = some reason)
      (hx : ∀ t, x.run t = (.error reason, t.withCalls s.calls)) :
      GoesThrough IsEnd x (s :: steps)

section GoesThrough

variable {IsEnd : Process α → Prop} {x : Process α} {steps : List Step} {reason : Rejection}

/-- Without a rejection all calls are made and an end is reached. -/
theorem GoesThrough.run_of_accepted (h : GoesThrough IsEnd x steps)
    (hsteps : ∀ s ∈ steps, s.rejection = none) :
    ∃ y, IsEnd y ∧ ∀ t, x.run t = y.run (t.withCalls (steps.flatMap Step.calls)) := by
  induction h with
  | done h => exact ⟨_, h, fun t => by simp⟩
  | accepted hs hx hy ih =>
    obtain ⟨y, hend, hrun⟩ := ih fun s hs => hsteps s (List.mem_cons_of_mem _ hs)
    refine ⟨y, hend, fun t => ?_⟩
    rw [hx, hrun, Trace.withCalls_withCalls, List.flatMap_cons]
  | rejected hs hx =>
    rw [hsteps _ List.mem_cons_self] at hs
    cases hs

/-- The first rejection ends a run, and no call is made after it. -/
theorem GoesThrough.run_of_rejected {before after : List Step} {s : Step}
    (h : GoesThrough IsEnd x (before ++ s :: after)) (hbefore : ∀ s ∈ before, s.rejection = none)
    (hs : s.rejection = some reason) (t : Trace) :
    x.run t = (.error reason, t.withCalls ((before ++ [s]).flatMap Step.calls)) := by
  induction before generalizing x t with
  | nil =>
    cases h with
    | accepted hnone =>
      rw [hs] at hnone
      cases hnone
    | rejected hsome hx =>
      obtain rfl := Option.some.inj (hs.symm.trans hsome)
      simpa using hx t
  | cons s' before ih =>
    cases h with
    | accepted _ hx hy =>
      have hrest := fun t => ih hy (fun s hs => hbefore s (List.mem_cons_of_mem _ hs)) t
      rw [hx, hrest, Trace.withCalls_withCalls, List.cons_append, List.flatMap_cons]
    | rejected hsome =>
      rw [hbefore s' List.mem_cons_self] at hsome
      cases hsome

-- One law for each kind of step, in the form in which programs are written.

/-- A call goes through the step that it belongs to, before the answer is looked at. -/
theorem GoesThrough.call {next : Unit → Process α} (c : Call) {s : Step} (hs : s.calls = [])
    (h : GoesThrough IsEnd (next ()) (s :: steps)) :
    GoesThrough IsEnd (Process.call c >>= next) (s.calling c :: steps) := by
  have hcall (t : Trace) : (Process.call c >>= next).run t = (next ()).run (t.withCalls [c]) := rfl
  cases h with
  | accepted hnone hx hy =>
    refine .accepted hnone (fun t => ?_) hy
    rw [hcall, hx, hs, Step.calls_calling, Trace.withCalls_nil]
  | rejected hsome hx =>
    refine .rejected hsome fun t => ?_
    rw [hcall, hx, hs, Step.calls_calling, Trace.withCalls_nil]

/-- An answer with a value goes on with the next step. -/
theorem GoesThrough.found {ε : Type} (reason : ε → Rejection) (b : β)
    (h : GoesThrough IsEnd x steps) :
    GoesThrough IsEnd x (.finding reason (.ok b) :: steps) :=
  .accepted rfl (fun t => by simp) h

/-- An answer without a value ends with its rejection. -/
theorem GoesThrough.failed {ε : Type} (reason : ε → Rejection) (failure : ε)
    (hx : ∀ t, x.run t = (.error (reason failure), t)) :
    GoesThrough IsEnd x (.finding reason (.error failure : Except ε β) :: steps) :=
  .rejected rfl fun t => by simpa using hx t

/-- A condition that holds goes on with the next step. -/
theorem GoesThrough.required {p : Prop} [Decidable p] (hp : p) (h : GoesThrough IsEnd x steps) :
    GoesThrough IsEnd x (.requiring p reason :: steps) :=
  .accepted (by simpa) (fun t => by simp) h

/-- A condition that does not hold ends with its rejection. -/
theorem GoesThrough.refused {p : Prop} [Decidable p] (hp : ¬p)
    (hx : ∀ t, x.run t = (.error reason, t)) :
    GoesThrough IsEnd x (.requiring p reason :: steps) :=
  .rejected (if_neg hp) fun t => by simpa using hx t

/-- What is known may speak against going on. -/
theorem GoesThrough.unless {c p : Prop} [Decidable c] [Decidable p] (hp : p ↔ ¬c)
    {next : Unit → Process α} (h : p → GoesThrough IsEnd (next ()) steps) :
    GoesThrough IsEnd (if c then throw reason >>= next else next ())
      (.requiring p reason :: steps) := by
  split_ifs with hc
  · exact .refused (fun h => hp.mp h hc) fun t => rfl
  · exact .required (hp.mpr hc) (h (hp.mpr hc))

/-- A question goes on with the steps that follow from its answer. -/
theorem GoesThrough.asking {next : β → Process α} (c : Call) {answer : Except Objection β}
    (h : ∀ b, answer = .ok b → GoesThrough IsEnd (next b) steps) :
    GoesThrough IsEnd (Process.call c >>= fun _ => accept answer >>= next)
      (.asking c answer :: steps) := by
  refine .call c rfl ?_
  cases answer with
  | ok b => exact .found .objection b (h b rfl)
  | error o => exact .failed .objection o fun t => rfl

/-- A question to the certificate goes on with the steps that follow from its answer. -/
theorem GoesThrough.inspecting {next : β → Process α} (c : Call) {answer : Except String β}
    (h : ∀ b, answer = .ok b → GoesThrough IsEnd (next b) steps) :
    GoesThrough IsEnd (ask c answer >>= next) (.inspecting c answer :: steps) := by
  unfold ask
  rw [bind_assoc]
  refine .call c rfl ?_
  cases answer with
  | ok b => exact .found _ b (h b rfl)
  | error text => exact .failed _ text fun t => rfl

end GoesThrough

end Process

/-- An identifier is present if it is there and not empty. -/
theorem presentIdentifier_eq_some_iff {s : Option String} {identifier : String} :
    presentIdentifier s = some identifier ↔ s = some identifier ∧ identifier ≠ "" := by
  unfold presentIdentifier
  simp [Option.filter_eq_some_iff]

/-- Processing an object goes through the steps that are listed, and ends with evidence. -/
theorem goesThrough_processObject (verifier : Verifier) (validator : Validator) (policy : Policy)
    (label : String) (tal : TalId) (object : Octets) :
    Process.GoesThrough (fun x => ∃ e : Evidence, e.Supports verifier policy label tal object ∧
        ∀ t, x.run t = (.ok (e.verified.certificate, e.judged validator label tal),
          { calls := t.calls ++ [.validate label e.resources (e.record tal)]
            log := t.log ++ e.lines validator label tal }))
      (processObject verifier validator policy label tal object)
      (processSteps verifier policy label tal object) := by
  unfold processObject processSteps
  refine .asking _ fun verified hverify => ?_
  simp only [hverify, VerifiedObject.steps, List.cons_append, List.nil_append]
  refine .inspecting _ fun aia haia => ?_
  refine .inspecting _ fun aki haki => ?_
  refine .inspecting _ fun sia hsia => ?_
  refine .inspecting _ fun ski hski => ?_
  -- All four identifiers are asked for before it matters whether they are present.
  split
  · rename_i aia' aki' sia' ski' haia' haki' hsia' hski'
    rw [presentIdentifier_eq_some_iff] at haia' haki' hsia' hski'
    obtain ⟨rfl, haia'⟩ := haia'
    obtain ⟨rfl, haki'⟩ := haki'
    obtain ⟨rfl, hsia'⟩ := hsia'
    obtain ⟨rfl, hski'⟩ := hski'
    refine .required (by simp [isIdentified_ok_iff, *]) ?_
    refine .inspecting _ fun notBefore hnotBefore => ?_
    refine .inspecting _ fun notAfter hnotAfter => ?_
    cases hdecode : Content.decode policy verified.content with
    | error failure => exact .failed .content failure fun t => rfl
    | ok content =>
      refine .found .content content ?_
      simp only [pure_bind]
      refine .call _ rfl (.unless (by simp) fun hinherits => ?_)
      refine .asking _ fun resources hresources => ?_
      simp only [hresources, Resources.steps]
      refine .unless (by simp) fun hasBlocks => ?_
      refine .unless (by simp) fun hipRanges => ?_
      let e : Evidence :=
        ⟨verified, aia', aki', sia', ski', notBefore, notAfter, content, resources⟩
      refine .done ⟨e, ⟨hverify, haia, haki, hsia, hski, ⟨haia', haki', hsia', hski'⟩, hnotBefore,
        hnotAfter, hdecode, hinherits, hresources, hasBlocks, hipRanges⟩, fun t => ?_⟩
      -- The verdict decides whether there is a warning in the log.
      split
      · rename_i h
        have hvalid : (e.verdict validator label tal).valid = false := (Bool.not_eq_true' _).mp h
        rw [e.lines_of_not_valid hvalid, ← List.append_assoc]
        rfl
      · rename_i h
        have hvalid : (e.verdict validator label tal).valid = true :=
          eq_true_of_ne_false fun hfalse => h ((Bool.not_eq_true' _).mpr hfalse)
        rw [e.lines_of_valid hvalid]
        rfl
  · rename_i hne
    refine .refused ?_ fun t => rfl
    rw [haia, haki, hsia, hski]
    simp only [isIdentified_ok_iff, ← presentIdentifier_eq_some_iff]
    rintro ⟨⟨aia', haia'⟩, ⟨aki', haki'⟩, ⟨sia', hsia'⟩, ⟨ski', hski'⟩⟩
    exact hne _ _ _ _ haia' haki' hsia' hski'

variable {verifier : Verifier} {policy : Policy} {label : String} {tal : TalId} {object : Octets}

/-- Evidence decides what processing comes to. -/
theorem Evidence.Supports.process_eq {e : Evidence}
    (h : e.Supports verifier policy label tal object) (validator : Validator) :
    process verifier validator policy label tal object = e.outcome validator label tal := by
  have hgoes := goesThrough_processObject verifier validator policy label tal object
  obtain ⟨x, ⟨e', he', hx⟩, hrun⟩ := hgoes.run_of_accepted h.rejection_eq_none
  obtain rfl := h.unique he'
  unfold process
  rw [hrun, hx, h.calls_eq]
  rfl

/-- The first step that rejects decides what processing comes to. -/
theorem process_eq_of_rejection_eq_some {before after : List Step} {s : Step} {reason : Rejection}
    (hsteps : processSteps verifier policy label tal object = before ++ s :: after)
    (hbefore : ∀ s ∈ before, s.rejection = none) (hs : s.rejection = some reason)
    (validator : Validator) :
    process verifier validator policy label tal object =
      ⟨.error ⟨label, reason⟩, ⟨(before ++ [s]).flatMap Step.calls,
        [⟨.debug, label ++ ": " ++ reason.message⟩]⟩⟩ := by
  have hgoes := goesThrough_processObject verifier validator policy label tal object
  rw [hsteps] at hgoes
  unfold process
  rw [hgoes.run_of_rejected hbefore hs]
  rfl

/-- Either there is evidence, or there is a first step that rejects. -/
theorem exists_supports_or_rejection (verifier : Verifier) (policy : Policy) (label : String)
    (tal : TalId) (object : Octets) :
    (∃ e : Evidence, e.Supports verifier policy label tal object) ∨
      ∃ before s after reason,
        processSteps verifier policy label tal object = before ++ s :: after ∧
          (∀ s ∈ before, s.rejection = none) ∧ s.rejection = some reason := by
  cases hfirst : (processSteps verifier policy label tal object).findSome? Step.rejection with
  | none =>
    have hgoes := goesThrough_processObject verifier .asCoverage policy label tal object
    obtain ⟨x, ⟨e, he, -⟩, -⟩ := hgoes.run_of_accepted (List.findSome?_eq_none_iff.mp hfirst)
    exact .inl ⟨e, he⟩
  | some reason =>
    obtain ⟨before, s, after, hsteps, hs, hbefore⟩ := List.findSome?_eq_some_iff.mp hfirst
    exact .inr ⟨before, s, after, reason, hsteps, hbefore, hs⟩

/-- A record that is made of an object is the one that the evidence leads to. -/
theorem exists_supports_of_process_eq_ok {validator : Validator} {certificate : Certificate}
    {r : Record}
    (h : (process verifier validator policy label tal object).result = .ok (certificate, r)) :
    ∃ e : Evidence, e.Supports verifier policy label tal object ∧
      e.judged validator label tal = r := by
  obtain ⟨e, he⟩ | ⟨before, s, after, reason, hsteps, hbefore, hs⟩ :=
    exists_supports_or_rejection verifier policy label tal object
  · rw [he.process_eq] at h
    cases h
    exact ⟨e, he, rfl⟩
  · rw [process_eq_of_rejection_eq_some hsteps hbefore hs] at h
    cases h

/-- Processing succeeds exactly if there is evidence for all that is asked. Then the calls are
those of all steps, and at last the validator is asked about the record that is returned, which
only takes over its verdict. Without evidence the first step that rejects decides what the error
is. The calls are those of the steps up to it, and the validator is not asked. -/
theorem process_decided (verifier : Verifier) (validator : Validator) (policy : Policy)
    (label : String) (tal : TalId) (object : Octets) :
    ((∃ certificate r, (process verifier validator policy label tal object).result =
        .ok (certificate, r)) ↔
      ∃ e : Evidence, e.Supports verifier policy label tal object) ∧
    (∀ e : Evidence, e.Supports verifier policy label tal object →
      process verifier validator policy label tal object = e.outcome validator label tal) ∧
    ((¬∃ e : Evidence, e.Supports verifier policy label tal object) →
      ∃ before s after reason,
        processSteps verifier policy label tal object = before ++ s :: after ∧
        (∀ s ∈ before, s.rejection = none) ∧ s.rejection = some reason ∧
        process verifier validator policy label tal object =
          ⟨.error ⟨label, reason⟩, ⟨(before ++ [s]).flatMap Step.calls,
            [⟨.debug, label ++ ": " ++ reason.message⟩]⟩⟩ ∧
        ∀ label' resources r,
          Call.validate label' resources r ∉ (before ++ [s]).flatMap Step.calls) := by
  refine ⟨⟨fun ⟨certificate, r, hresult⟩ => ?_, fun ⟨e, he⟩ => ?_⟩,
    fun e he => he.process_eq validator, fun hnone => ?_⟩
  · obtain ⟨e, he, -⟩ := exists_supports_of_process_eq_ok hresult
    exact ⟨e, he⟩
  · rw [he.process_eq]
    exact ⟨_, _, rfl⟩
  · -- Without evidence some step rejects, and the steps before the first one do not.
    obtain ⟨before, s, after, reason, hsteps, hbefore, hs⟩ :=
      (exists_supports_or_rejection verifier policy label tal object).resolve_left hnone
    refine ⟨before, s, after, reason, hsteps, hbefore, hs,
      process_eq_of_rejection_eq_some hsteps hbefore hs validator, ?_⟩
    intro label' resources r hcall
    obtain ⟨s', hs', hmem⟩ := List.mem_flatMap.mp hcall
    refine validate_notMem_calls verifier policy label tal object label' resources r s' ?_ hmem
    rw [hsteps]
    simp only [List.mem_append, List.mem_cons, List.not_mem_nil, or_false] at hs' ⊢
    tauto

namespace Record

/-- The last second of 2023. -/
def sampleTime : Time := (Time.ofSeconds? 1704067199).get rfl

/-- A verifier that takes any object for its own content and has a certificate for AS64496. -/
def sampleVerifier : Verifier where
  verify _ object _ :=
    .ok
      { certificate :=
          { aia := .ok (some "rsync://a/b.cer")
            aki := .ok (some "0a")
            sia := .ok (some "rsync://a/c.spl")
            ski := .ok (some "0b")
            notBefore := .ok sampleTime
            notAfter := .ok sampleTime
            inherits := false }
        content := object
        signingTime := sampleTime }
  resources _ _ _ := .ok ⟨[.single ⟨64496⟩], []⟩

end Record

/-- A verifier whose certificate does not name its issuer, has a malformed key of the issuer and
takes over resources. -/
def faultyVerifier : Verifier where
  verify label object contentType :=
    (Record.sampleVerifier.verify label object contentType).map fun verified =>
      { verified with
        certificate :=
          { verified.certificate with
            aia := .ok none
            aki := .error "malformed key identifier"
            inherits := true } }
  resources := Record.sampleVerifier.resources

/-- What is known of the sample content with the certificate of the sample verifier. -/
def sampleEvidence : Evidence where
  verified := (Record.sampleVerifier.verify "c.spl" Content.sampleOctets
    Oid.signedPrefixList).toOption.get rfl
  aia := "rsync://a/b.cer"
  aki := "0a"
  sia := "rsync://a/c.spl"
  ski := "0b"
  notBefore := Record.sampleTime
  notAfter := Record.sampleTime
  content := Content.sample
  resources := ⟨[.single ⟨64496⟩], []⟩

/-- The malformed key decides, although the issuer is asked for before it and inheritance and the
content would be faults after it. Without a fault the validator decides whether the record is
valid. -/
theorem process_decided_faulty :
    (¬∃ e : Evidence, e.Supports faultyVerifier .default "c.spl" ⟨3⟩ [5, 0]) ∧
      process faultyVerifier .asCoverage .default "c.spl" ⟨3⟩ [5, 0] =
        ⟨.error ⟨"c.spl", .objection (.inspection "malformed key identifier")⟩,
          ⟨[.verify "c.spl" Oid.signedPrefixList, .aia, .aki],
            [⟨.debug, "c.spl: malformed key identifier"⟩]⟩⟩ ∧
      sampleEvidence.Supports Record.sampleVerifier .default "c.spl" ⟨3⟩ Content.sampleOctets ∧
      (process Record.sampleVerifier (.constant false) .default "c.spl" ⟨3⟩
        Content.sampleOctets).result =
          .ok (sampleEvidence.verified.certificate, sampleEvidence.record ⟨3⟩) := by
  have hfaulty : process faultyVerifier .asCoverage .default "c.spl" ⟨3⟩ [5, 0] =
      ⟨.error ⟨"c.spl", .objection (.inspection "malformed key identifier")⟩,
        ⟨[.verify "c.spl" Oid.signedPrefixList, .aia, .aki],
          [⟨.debug, "c.spl: malformed key identifier"⟩]⟩⟩ := rfl
  have hsupports : sampleEvidence.Supports Record.sampleVerifier .default "c.spl" ⟨3⟩
      Content.sampleOctets :=
    { verify_eq := rfl
      aia_eq := rfl
      aki_eq := rfl
      sia_eq := rfl
      ski_eq := rfl
      ne_empty := by decide
      notBefore_eq := rfl
      notAfter_eq := rfl
      decode_eq := by decide +kernel
      inherits_eq := rfl
      resources_eq := rfl
      asBlocks_ne_nil := by decide
      ipRanges_eq_nil := rfl }
  refine ⟨fun hevidence => ?_, hfaulty, hsupports, ?_⟩
  · -- Evidence would make processing succeed, which it does not.
    obtain ⟨certificate, r, hresult⟩ :=
      (process_decided faultyVerifier .asCoverage .default "c.spl" ⟨3⟩ [5, 0]).1.mpr hevidence
    rw [hfaulty] at hresult
    cases hresult
  · rw [(process_decided Record.sampleVerifier (.constant false) .default "c.spl" ⟨3⟩
      Content.sampleOctets).2.1 sampleEvidence hsupports]
    rfl

end SignedPrefixes
