import SignedPrefixes.Proofs.Content.Canonical
import SignedPrefixes.Proofs.Content.Outcome

/-!
# Content survives writing and decoding

Content can be made from prefixes or decoded. Either way its prefixes ascend, so
its raw form passes all checks, under a strict policy and under any other, as long
as the prefixes are not too many.
-/

namespace SignedPrefixes

open Ber Ber.Reader

variable {policy : Policy}

namespace RawContent

variable {family : Family} {ps : List IpPrefix}

/-- Decoding raw content that is written comes to what checking it comes to. -/
theorem outcome_decode_encode {raw : RawContent} (hlength : raw.encode.length < 2 ^ 32) :
    outcome (Content.decode policy raw.encode) = raw.check policy := by
  have htake : (Input.ofOctets raw.encode).Takes raw.encode ⟨[], raw.encode.length, none⟩ :=
    ⟨(List.append_nil _).symm, (Nat.zero_add _).symm, rfl, by simp [Input.ofOctets]⟩
  have hread : outcome (Content.reader _ policy (Input.ofOctets raw.encode)) = _ :=
    Content.outcome_reader hlength htake
  unfold Content.decode
  obtain ⟨failure, hresult, hcheck⟩ | ⟨c, hresult, hcheck⟩ := outcome_eq_map hread
  · rw [hresult, hcheck]
    rfl
  · rw [hresult, hcheck]
    rfl

/-- The bit string of a prefix is checked as this prefix if it comes after the one before and is
below the bound. -/
theorem checkPrefix_of_lt {p : IpPrefix} {before : Option IpPrefix} {count : ℕ}
    (hfamily : p.family = family) (hbefore : ∀ q ∈ before, q < p)
    (hcount : count + 1 < policy.maxPrefixes) :
    RawBlock.checkPrefix policy family count before p.bits.toBitString = .ok p := by
  have hlength : p.bits.length ≤ family.width := hfamily ▸ p.length_le
  have hnew : IpPrefix.new? family p.bits = some p := by
    subst hfamily
    rw [IpPrefix.new?, dif_pos hlength]
  have hbits : Prefix.check policy family p.bits.toBitString = .ok p.bits := by
    unfold Prefix.check
    rw [Prefix.hasUnusedBits_toBitString, Prefix.ofBitString_toBitString hlength]
    simp [Except.mapError]
  have hsorted : ¬before.any (p ≤ ·) = true := by
    cases before with
    | none => simp
    | some q => simpa using hbefore q rfl
  rw [RawBlock.checkPrefix_of_check hbits hnew, if_neg hsorted, if_neg (Nat.not_le.mpr hcount)]

/-- Ascending prefixes of one family pass the checks of their bit strings. -/
theorem checkPrefixes_map (hfamily : ∀ p ∈ ps, p.family = family) (hsorted : ps.Pairwise (· < ·))
    (before : Option IpPrefix) (hbefore : ∀ q ∈ before, ∀ p ∈ ps, q < p) (count : ℕ)
    (hcount : ps = [] ∨ count + ps.length < policy.maxPrefixes) :
    RawBlock.checkPrefixes policy family count before (ps.map fun p => p.bits.toBitString) =
      .ok ps := by
  induction ps generalizing before count with
  | nil => rfl
  | cons p ps ih =>
    obtain ⟨hfirst, hrest⟩ := List.pairwise_cons.mp hsorted
    have hlt := hcount.resolve_left (List.cons_ne_nil p ps)
    rw [List.length_cons] at hlt
    have hp := checkPrefix_of_lt (hfamily p List.mem_cons_self)
      (fun q hq => hbefore q hq p List.mem_cons_self) (by omega : count + 1 < policy.maxPrefixes)
    have hps := ih (fun q hq => hfamily q (List.mem_cons_of_mem p hq)) hrest (some p)
      (fun q hq r hr => by
        obtain rfl := Option.some.inj (Option.mem_def.mp hq)
        exact hfirst r hr)
      (count + 1) (Or.inr (by omega))
    rw [List.map_cons, RawBlock.checkPrefixes_cons, hp]
    change Except.map _ _ = _
    rw [hps]
    rfl

/-- The raw form of ascending prefixes is checked as these prefixes, and then come the other
blocks. -/
theorem checkBlocks_ofPrefixes (hne : ps ≠ []) (hfamily : ∀ p ∈ ps, p.family = family)
    (hsorted : ps.Pairwise (· < ·)) {before : List Family}
    (hbefore : (RawBlock.ofPrefixes family ps).checkFamily before = .ok family) {count : ℕ}
    (hcount : count + ps.length < policy.maxPrefixes) (rest : List RawBlock) :
    checkBlocks policy before count (RawBlock.ofPrefixes family ps :: rest) =
      (checkBlocks policy (before ++ [family]) (count + ps.length) rest).map
        fun qs => ps ++ qs := by
  have hprefixes := checkPrefixes_map hfamily hsorted none (by simp) count (Or.inr hcount)
  have hempty : ¬ps.isEmpty = true := by simpa using hne
  rw [Content.checkBlocks_cons, hbefore]
  change RawBlock.checkPrefixes policy family count none (ps.map _) >>= _ = _
  rw [hprefixes]
  change ite _ _ _ = _
  rw [if_neg hempty]

/-- The number of an AS is checked as this AS. -/
theorem checkAsn_number (asn : Asn) : checkAsn asn.number.toNat = .ok asn := by
  have hrange : (0 : ℤ) ≤ asn.number.toNat ∧ (asn.number.toNat : ℤ) < UInt32.size :=
    ⟨Int.natCast_nonneg _, Int.ofNat_lt.mpr (UInt32.toNat_lt_size asn.number)⟩
  rw [checkAsn, if_pos hrange, Int.toNat_natCast, UInt32.ofNat_toNat]

/-- The raw form of content has a block for each part that is not empty. -/
private theorem blocks_ofContent (c : Content) :
    (ofContent c).blocks =
      (if c.ipv4Prefixes = [] then [] else [RawBlock.ofPrefixes .ipv4 c.ipv4Prefixes]) ++
        (if c.ipv6Prefixes = [] then [] else [RawBlock.ofPrefixes .ipv6 c.ipv6Prefixes]) := by
  have hempty (family : Family) (ps : List IpPrefix) :
      (RawBlock.ofPrefixes family ps).prefixes.isEmpty = ps.isEmpty := by
    cases ps <;> rfl
  unfold ofContent
  by_cases hipv4 : c.ipv4Prefixes = [] <;> by_cases hipv6 : c.ipv6Prefixes = [] <;>
    simp [hempty, hipv4, hipv6]

/-- The blocks of content with ascending prefixes give its prefixes back. -/
theorem checkBlocks_ofContent {c : Content} (hc : c.IsAscending)
    (hcount : c.prefixes = [] ∨ c.prefixes.length < policy.maxPrefixes) :
    checkBlocks policy [] 0 (ofContent c).blocks = .ok c.prefixes := by
  have hsplit := c.ipv4Prefixes_append_ipv6Prefixes
  have hfamily4 : ∀ p ∈ c.ipv4Prefixes, p.family = .ipv4 := fun p hp =>
    Content.family_of_mem_ipv4Prefixes hp
  have hfamily6 : ∀ p ∈ c.ipv6Prefixes, p.family = .ipv6 := fun p hp =>
    hc.family_of_mem_ipv6Prefixes hp
  have hsorted := hc
  unfold Content.IsAscending at hsorted
  rw [← hsplit, List.pairwise_append] at hsorted
  obtain ⟨hsorted4, hsorted6, -⟩ := hsorted
  -- Each family may or may not have prefixes, and thus a block.
  rw [blocks_ofContent]
  rw [← hsplit, List.append_eq_nil_iff, List.length_append] at hcount
  by_cases hipv4 : c.ipv4Prefixes = []
  · rw [hipv4] at hsplit hcount
    by_cases hipv6 : c.ipv6Prefixes = []
    · rw [hipv6] at hsplit
      rw [if_pos hipv4, if_pos hipv6, ← hsplit]
      rfl
    · have hlt := hcount.resolve_left fun h => hipv6 h.2
      rw [if_pos hipv4, if_neg hipv6, List.nil_append,
        checkBlocks_ofPrefixes hipv6 hfamily6 hsorted6 rfl (by simpa using hlt)]
      rw [← hsplit]
      change Except.ok (c.ipv6Prefixes ++ []) = _
      rw [List.append_nil, List.nil_append]
  · have hlt := hcount.resolve_left fun h => hipv4 h.1
    by_cases hipv6 : c.ipv6Prefixes = []
    · rw [if_neg hipv4, if_pos hipv6, List.append_nil,
        checkBlocks_ofPrefixes hipv4 hfamily4 hsorted4 rfl (by omega)]
      rw [← hsplit, hipv6]
      rfl
    · rw [if_neg hipv4, if_neg hipv6, List.singleton_append,
        checkBlocks_ofPrefixes hipv4 hfamily4 hsorted4 rfl (by omega),
        checkBlocks_ofPrefixes hipv6 hfamily6 hsorted6 rfl (by omega)]
      rw [← hsplit]
      change Except.ok (c.ipv4Prefixes ++ (c.ipv6Prefixes ++ [])) = _
      rw [List.append_nil]

/-- The raw form of content with ascending prefixes passes all checks. -/
theorem check_ofContent {c : Content} (hc : c.IsAscending)
    (hcount : c.prefixes = [] ∨ c.prefixes.length < policy.maxPrefixes) :
    (ofContent c).check policy = .ok c := by
  have hasn : checkAsn (ofContent c).asn = .ok c.asn := checkAsn_number c.asn
  unfold check
  rw [hasn, checkBlocks_ofContent hc hcount]
  rfl

end RawContent

namespace Content

/-- Content that can come about: made from prefixes, or decoded under some policy. -/
inductive Produced : Content → Prop where
  /-- Made from prefixes, which are sorted. -/
  | ofPrefixes (asn : Asn) (prefixes : List IpPrefix) : Produced (ofPrefixes asn prefixes)
  /-- Decoded under some policy. -/
  | decode {policy : Policy} {os : Octets} {c : Content} (h : decode policy os = .ok c) :
      Produced c

/-- The prefixes of content that can come about ascend. -/
theorem Produced.isAscending {c : Content} (hc : c.Produced) : c.IsAscending := by
  cases hc with
  | ofPrefixes asn prefixes => exact isAscending_ofPrefixes asn prefixes
  | decode h => exact (decode_eq_ok h).1

/-- Content that can come about is what its encoding is decoded as, under all policies that
allow that many prefixes. -/
theorem decode_encode_of_produced {c : Content} (hc : c.Produced)
    (hlength : c.encode.length < 2 ^ 32)
    (hcount : c.prefixes = [] ∨ c.prefixes.length < policy.maxPrefixes) :
    decode policy c.encode = .ok c := by
  have hraw := RawContent.encode_ofContent c
  rw [← hraw] at hlength ⊢
  have hdecode : outcome (decode policy (RawContent.ofContent c).encode) = _ :=
    RawContent.outcome_decode_encode hlength
  rw [RawContent.check_ofContent hc.isAscending hcount] at hdecode
  exact outcome_eq_ok_iff.mp hdecode

/-- Content decoded under a strict policy is decoded again under one that is not, if that
allows just one prefix more than there are. -/
theorem decode_encode_of_produced_sample :
    sample.Produced ∧ sample.encode.length < 2 ^ 32 ∧ sample.prefixes.length < 3 ∧
      decode ⟨false, 3⟩ sample.encode = .ok sample := by
  have hc : sample.Produced :=
    .decode (by decide +kernel : decode Policy.default sampleOctets = .ok sample)
  have hlength : sample.encode.length < 2 ^ 32 := by decide +kernel
  have hcount : sample.prefixes.length < 3 := by decide
  exact ⟨hc, hlength, hcount, decode_encode_of_produced hc hlength (Or.inr hcount)⟩

end Content

end SignedPrefixes
