import SignedPrefixes.Proofs.Content.FirstFault
import SignedPrefixes.Proofs.Record.Transport

/-!
# What is true of all records

A record gets its prefixes from one of two readers. Content is checked one block at a
time, and a record that is handed over is checked as one list. Either way the prefixes
ascend strictly, fit their family and have no set bits after their length, and the
identifiers are not empty. A processed record also has a place and not too many prefixes.
-/

namespace SignedPrefixes

namespace IpPrefix

variable {p : IpPrefix}

/-- An IPv4 prefix has at most 32 bits. -/
theorem length_le_of_ipv4 (h : p.family = .ipv4) : p.length ≤ 32 := by
  have hle := p.length_le
  rwa [h] at hle

/-- The bits of an IPv4 prefix are all in the upper 32 bits. -/
theorem setWidth_bits_of_ipv4 (h : p.family = .ipv4) :
    p.bits.address.bits.setWidth 96 = 0 := by
  have hle : p.bits.length ≤ 32 := length_le_of_ipv4 h
  refine BitVec.eq_of_getLsbD_eq fun i hi => ?_
  have hclear : p.bits.address.bits.getMsbD (127 - i) = false :=
    p.bits.getMsbD_of_length_le (by omega)
  have hback : 127 - (127 - i) = i := by omega
  rw [BitVec.getMsbD, hback] at hclear
  simpa [hi, show 127 - i < 128 by omega] using hclear

end IpPrefix

namespace Record

/-- What is true of every record that can come about. -/
structure WellFormed (r : Record) : Prop where
  /-- The prefixes ascend strictly. -/
  pairwise_prefixes : r.prefixes.Pairwise (· < ·)
  /-- No prefix is there twice. -/
  nodup_prefixes : r.prefixes.Nodup
  /-- The IPv4 prefixes come before the IPv6 prefixes. -/
  exists_families : ∃ ps qs, r.prefixes = ps ++ qs ∧ (∀ p ∈ ps, p.family = .ipv4) ∧
    ∀ q ∈ qs, q.family = .ipv6
  /-- An IPv4 prefix has at most 32 bits. -/
  length_le_of_ipv4 : ∀ p ∈ r.prefixes, p.family = .ipv4 → p.length ≤ 32
  /-- No prefix has more than 128 bits. -/
  length_le : ∀ p ∈ r.prefixes, p.length ≤ 128
  /-- No bit of an address is set after the length, counted from the first bit. -/
  getMsbD_of_length_le : ∀ p ∈ r.prefixes, ∀ i, p.length ≤ i →
    p.bits.address.bits.getMsbD i = false
  /-- The address of an IPv4 prefix takes up the first 32 bits only. -/
  setWidth_bits_of_ipv4 : ∀ p ∈ r.prefixes, p.family = .ipv4 →
    p.bits.address.bits.setWidth 96 = 0
  /-- The identifiers are not empty. -/
  aia_ne_empty : r.aia ≠ ""
  aki_ne_empty : r.aki ≠ ""
  ski_ne_empty : r.ski ≠ ""

variable {r : Record} {policy : Policy}

/-- Every record that can come about is well formed. -/
theorem Produced.wellFormed (hr : r.Produced) : r.WellFormed := by
  have hsorted := hr.pairwise_prefixes
  have hascending : r.content.IsAscending := hsorted
  obtain ⟨haia, haki, hski⟩ := hr.identifiers_ne_empty
  exact
    { pairwise_prefixes := hsorted
      nodup_prefixes := hsorted.imp fun hlt => hlt.ne
      exists_families :=
        ⟨r.content.ipv4Prefixes, r.content.ipv6Prefixes,
          r.content.ipv4Prefixes_append_ipv6Prefixes.symm,
          fun _ => Content.family_of_mem_ipv4Prefixes,
          fun _ => hascending.family_of_mem_ipv6Prefixes⟩
      length_le_of_ipv4 := fun _ _ hfamily => IpPrefix.length_le_of_ipv4 hfamily
      length_le := fun p _ => p.bits.length_le
      getMsbD_of_length_le := fun p _ _ hi => p.bits.getMsbD_of_length_le hi
      setWidth_bits_of_ipv4 := fun _ _ hfamily => IpPrefix.setWidth_bits_of_ipv4 hfamily
      aia_ne_empty := haia
      aki_ne_empty := haki
      ski_ne_empty := hski }

/-- Setting the expiry keeps what processing has found. -/
theorem Processed.sia_and_count (hr : r.Processed policy) :
    (∃ sia, r.sia = some sia ∧ sia ≠ "") ∧
      (r.prefixes = [] ∨ r.prefixes.length < policy.maxPrefixes) := by
  induction hr with
  | process h =>
    obtain ⟨⟨os, hcontent⟩, -, -, -, hsia⟩ := process_eq_ok h
    exact ⟨hsia, (Content.decode_eq_ok hcontent).2.1⟩
  | withExpires hr expires ih => exact ih

/-- Every record that can come about is well formed. A processed one has a place, and its
prefixes are none or fewer than its policy allows. Set bits after the length of a prefix do not
get in the way under a lax policy: the prefix has the bits before its length and no others. -/
theorem wellFormed_of_produced :
    (∀ r : Record, r.Produced → r.WellFormed) ∧
    (∀ (policy : Policy) (r : Record), r.Processed policy →
      (∃ sia, r.sia = some sia ∧ sia ≠ "") ∧
        (r.prefixes = [] ∨ r.prefixes.length < policy.maxPrefixes)) ∧
    ∀ (family : Family) (s : BitString), s.octets.length ≤ family.octetCount →
      ∃ p, Prefix.ofBitString family false s = .ok p ∧ p.length = s.length ∧
        ∀ i, p.address.bits.getMsbD i =
          (decide (i < s.length) && (Address.ofOctets s.octets).bits.getMsbD i) := by
  refine ⟨fun r hr => hr.wellFormed, fun policy r hr => hr.sia_and_count, ?_⟩
  intro family s hoctets
  obtain ⟨p, hp⟩ := Prefix.exists_ofBitString hoctets
  obtain ⟨-, hlength, haddress, -⟩ := Prefix.ofBitString_eq_ok_iff.mp hp
  refine ⟨p, hp, hlength, fun i => ?_⟩
  rw [haddress, Address.getMsbD_clearAfter _ (hlength ▸ p.length_le)]

/-- The record that processing the lenient sample gives under a policy that is not strict. Its
IPv4 prefix is 10.0.0.0/23, although the last octet is written as one. -/
def sampleLenient : Record :=
  { sampleProcessed with
    prefixes :=
      [⟨.ipv4, ⟨⟨0x0a000000000000000000000000000000⟩, 23, by decide, by decide⟩, by decide⟩,
        ⟨.ipv6, ⟨⟨0x20010000000000000000000000000000⟩, 16, by decide, by decide⟩, by decide⟩] }

/-- A record made from content with a set unused bit is well formed, also after its expiry has
been set. -/
theorem wellFormed_of_produced_lenient :
    (sampleLenient.withExpires sampleTime).Processed ⟨false, 3⟩ ∧
      (sampleLenient.withExpires sampleTime).WellFormed ∧
      (sampleLenient.withExpires sampleTime).prefixes.length < 3 ∧
      ∃ p, Prefix.ofBitString .ipv4 false ⟨[10, 0, 1], 1, by decide, by decide⟩ = .ok p ∧
        p.length = 23 ∧ p.address.bits.getMsbD 23 = false := by
  have hrecord : ((process sampleVerifier .asCoverage ⟨false, 3⟩ "c.spl" ⟨3⟩
      RawContent.lenientSample.encode).result.toOption.map Prod.snd) = some sampleLenient := by
    decide +kernel
  have hprocessed : (sampleLenient.withExpires sampleTime).Processed ⟨false, 3⟩ :=
    (Processed.of_map_snd_eq_some hrecord).withExpires sampleTime
  obtain ⟨hwellFormed, hcount, hbits⟩ := wellFormed_of_produced
  obtain ⟨p, hp, hlength, hbit⟩ := hbits .ipv4 ⟨[10, 0, 1], 1, by decide, by decide⟩ (by decide)
  have hfew := (hcount ⟨false, 3⟩ _ hprocessed).2
  refine ⟨hprocessed, hwellFormed _ hprocessed.produced, hfew.resolve_left (by decide), p, hp,
    hlength, ?_⟩
  rw [hbit]
  rfl

end Record

end SignedPrefixes
