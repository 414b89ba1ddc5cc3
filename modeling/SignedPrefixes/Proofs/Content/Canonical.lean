import SignedPrefixes.Proofs.Content.Accepted

/-!
# Strict decoding is canonical

Octets that a strict policy accepts are the encoding of what they are read as, so
there is no other way to write the same content.
-/

namespace SignedPrefixes.Content

open Ber

variable {policy : Policy} {os : Octets} {c : Content}

/-- Content that is decoded has ascending prefixes that are not too many. If the policy is
strict, the octets are its encoding. -/
theorem decode_eq_ok (h : decode policy os = .ok c) :
    c.IsAscending ∧ (c.prefixes = [] ∨ c.prefixes.length < policy.maxPrefixes) ∧
      (policy.strict = true → c.encode = os) := by
  obtain ⟨after, hread, hend⟩ := decode_eq_ok_iff.mp h
  obtain ⟨hascending, hcount, htake⟩ := reader_eq_ok hread
  refine ⟨hascending, hcount, fun hstrict => ?_⟩
  have hder : rulesOf policy = .der := if_pos hstrict
  have hrest := (htake hder hstrict).rest_eq
  rw [hend, List.append_nil] at hrest
  exact hrest.symm

/-- Under a strict policy only the encoding of content is accepted as that content, and under
no strict policy anything else is. -/
theorem strict_decode_canonical (hstrict : policy.strict = true) (h : decode policy os = .ok c) :
    c.encode = os ∧
      ∀ (policy' : Policy) (os' : Octets), policy'.strict = true →
        decode policy' os' = .ok c → os' = os := by
  have hencode := (decode_eq_ok h).2.2 hstrict
  refine ⟨hencode, fun policy' os' hstrict' h' => ?_⟩
  exact ((decode_eq_ok h').2.2 hstrict').symm.trans hencode

/-- AS64496 with one prefix of each family, 10.0.0.0/8 and 2001:db8::/32. -/
def sample : Content :=
  ⟨⟨64496⟩,
    [⟨.ipv4, ⟨⟨0x0a000000000000000000000000000000⟩, 8, by decide, by decide⟩, by decide⟩,
      ⟨.ipv6, ⟨⟨0x20010db8000000000000000000000000⟩, 32, by decide, by decide⟩, by decide⟩]⟩

/-- The octets of the sample. -/
def sampleOctets : Octets :=
  [48, 34, 2, 3, 0, 251, 240, 48, 27, 48, 10, 4, 2, 0, 1, 48, 4, 3, 2, 0, 10, 48, 13, 4, 2, 0, 2,
    48, 7, 3, 5, 0, 32, 1, 13, 184]

/-- Content with a block of each family is read under the default policy, and from no other
octets. -/
theorem strict_decode_canonical_sample :
    decode Policy.default sampleOctets = .ok sample ∧ sample.encode = sampleOctets ∧
      ∀ (policy' : Policy) (os' : Octets), policy'.strict = true →
        decode policy' os' = .ok sample → os' = sampleOctets := by
  have hdecode : decode Policy.default sampleOctets = .ok sample := by decide +kernel
  exact ⟨hdecode, strict_decode_canonical rfl hdecode⟩

end SignedPrefixes.Content
