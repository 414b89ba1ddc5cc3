import SignedPrefixes.Proofs.Record.FirstRejection
import SignedPrefixes.Record.Wire

/-!
# Records that can come about

A record is made by processing an object, is taken from octets, or is another one
with a different expiry. The prefixes of such a record ascend strictly, because
content that is decoded has ascending prefixes and because octets that hold others
are refused.
-/

namespace SignedPrefixes

variable {verifier : Verifier} {validator : Validator} {policy : Policy} {label : String}
  {tal : TalId} {object : Octets} {certificate : Certificate} {r : Record}

/-- A record that is made of an object has the content that was decoded, and identifiers that
are not empty. -/
theorem process_eq_ok
    (h : (process verifier validator policy label tal object).result = .ok (certificate, r)) :
    (∃ os, Content.decode policy os = .ok r.content) ∧ r.aia ≠ "" ∧ r.aki ≠ "" ∧ r.ski ≠ "" ∧
      ∃ sia, r.sia = some sia ∧ sia ≠ "" := by
  obtain ⟨e, he, rfl⟩ := exists_supports_of_process_eq_ok h
  obtain ⟨haia, haki, hsia, hski⟩ := he.ne_empty
  exact ⟨⟨_, he.decode_eq⟩, haia, haki, hski, _, rfl, hsia⟩

namespace Wire

open StateExcept

/-- Prefixes that are taken ascend strictly, also from the one before them. -/
theorem ipPrefixes_eq_ok {n : ℕ} {before : Option IpPrefix} {ps : List IpPrefix}
    {os rest : Octets} (h : ipPrefixes n before os = .ok (ps, rest)) :
    ps.Pairwise (· < ·) ∧ ∀ q ∈ before, ∀ p ∈ ps, q < p := by
  induction n generalizing before ps os with
  | zero =>
    cases h
    simp
  | succ n ih =>
    unfold ipPrefixes at h
    obtain ⟨p, afterPrefix, -, h⟩ := bind_eq_ok_iff.mp h
    simp only [branch_apply, bind_of_error (throw_apply _), ite_error_eq_ok_iff] at h
    obtain ⟨hsorted, h⟩ := h
    obtain ⟨ps', after, hrest, h⟩ := bind_eq_ok_iff.mp h
    cases h
    obtain ⟨hpairwise, hfirst⟩ := ih hrest
    refine ⟨List.pairwise_cons.mpr ⟨hfirst p rfl, hpairwise⟩, ?_⟩
    intro q hq p' hp'
    have hqp : q < p := by
      rw [Option.mem_def.mp hq] at hsorted
      exact lt_of_not_ge (by simpa using hsorted)
    rcases List.mem_cons.mp hp' with rfl | hp'
    · exact hqp
    · exact hqp.trans (hfirst p rfl p' hp')

end Wire

namespace Record

open StateExcept

/-- The prefixes of a record that is taken from octets ascend strictly. -/
theorem pairwise_of_decode {os rest : Octets} (h : decode os = .ok (r, rest)) :
    r.prefixes.Pairwise (· < ·) := by
  unfold decode Wire.record at h
  obtain ⟨valid, _, -, h⟩ := bind_eq_ok_iff.mp h
  obtain ⟨asn, _, -, h⟩ := bind_eq_ok_iff.mp h
  obtain ⟨tal, _, -, h⟩ := bind_eq_ok_iff.mp h
  obtain ⟨count, _, -, h⟩ := bind_eq_ok_iff.mp h
  obtain ⟨expires, _, -, h⟩ := bind_eq_ok_iff.mp h
  simp only [bind_of_ok get_apply, branch_apply, bind_of_error (throw_apply _),
    ite_error_eq_ok_iff] at h
  obtain ⟨-, h⟩ := h
  obtain ⟨prefixes, _, hprefixes, h⟩ := bind_eq_ok_iff.mp h
  obtain ⟨aia, _, -, h⟩ := bind_eq_ok_iff.mp h
  obtain ⟨aki, _, -, h⟩ := bind_eq_ok_iff.mp h
  obtain ⟨ski, _, -, h⟩ := bind_eq_ok_iff.mp h
  cases h
  exact (Wire.ipPrefixes_eq_ok hprefixes).1

/-- Records that can come about: made by processing an object, taken from octets, or made from
another one by setting its expiry. -/
inductive Produced : Record → Prop where
  /-- Made by processing an object. -/
  | process {verifier : Verifier} {validator : Validator} {policy : Policy} {label : String}
      {tal : TalId} {object : Octets} {certificate : Certificate} {r : Record}
      (h : (process verifier validator policy label tal object).result = .ok (certificate, r)) :
      Produced r
  /-- Taken from octets. -/
  | decode {os rest : Octets} {r : Record} (h : decode os = .ok (r, rest)) : Produced r
  /-- Made from another record by setting its expiry. -/
  | withExpires {r : Record} (hr : Produced r) (expires : Time) : Produced (r.withExpires expires)

/-- Records that are made by processing an object under a policy, also with another expiry set
afterwards. -/
inductive Processed (policy : Policy) : Record → Prop where
  /-- Made by processing an object under the policy. -/
  | process {verifier : Verifier} {validator : Validator} {label : String} {tal : TalId}
      {object : Octets} {certificate : Certificate} {r : Record}
      (h : (process verifier validator policy label tal object).result = .ok (certificate, r)) :
      Processed policy r
  /-- Made from another such record by setting its expiry. -/
  | withExpires {r : Record} (hr : Processed policy r) (expires : Time) :
      Processed policy (r.withExpires expires)

/-- A record that is made by processing can come about. -/
theorem Processed.produced (hr : r.Processed policy) : r.Produced := by
  induction hr with
  | process h => exact .process h
  | withExpires hr expires ih => exact ih.withExpires expires

/-- A record that processing is found to give is a processed one. -/
theorem Processed.of_map_snd_eq_some
    (h : (SignedPrefixes.process verifier validator policy label tal object).result.toOption.map
      Prod.snd = some r) : r.Processed policy := by
  cases hresult : (SignedPrefixes.process verifier validator policy label tal object).result with
  | error rejection =>
    rw [hresult] at h
    cases h
  | ok result =>
    rw [hresult] at h
    obtain rfl := Option.some.inj h
    exact .process hresult

/-- The prefixes of every record that can come about ascend strictly. -/
theorem Produced.pairwise_prefixes (hr : r.Produced) : r.prefixes.Pairwise (· < ·) := by
  induction hr with
  | process h =>
    obtain ⟨⟨os, hcontent⟩, -⟩ := process_eq_ok h
    exact (Content.decode_eq_ok hcontent).1
  | decode h => exact pairwise_of_decode h
  | withExpires hr expires ih => exact ih

end Record

end SignedPrefixes
