import SignedPrefixes.Proofs.Content.Grammar
import SignedPrefixes.Proofs.Content.RoundTrip

/-!
# The first broken rule decides

Decoding content that is written comes to the content that follows the rules. If it
breaks some, decoding fails for the first one of them, counted from the front, and in
the words for this rule. This holds for each bit string, thus for each block, and thus
for the whole.
-/

namespace SignedPrefixes

open Ber Ber.Reader

variable {policy : Policy} {family : Family}

/-- A failure for the first of the broken rules, or a value if there are none. -/
def verdict {α : Type} (faults : List ContentRule) (a : α) : Except (Cause Refusal) α :=
  match faults with
  | [] => .ok a
  | rule :: _ => .error rule.cause

/-- A function changes the value and not the failure. -/
theorem verdict_map {α β : Type} (faults : List ContentRule) (a : α) (f : α → β) :
    (verdict faults a).map f = verdict faults (f a) := by
  cases faults <;> rfl

/-- What is checked later matters only if nothing is broken before. -/
theorem verdict_bind {α β : Type} {faults faults' : List ContentRule} {a : α} {b : β}
    {next : α → Except (Cause Refusal) β} (h : faults = [] → next a = verdict faults' b) :
    verdict faults a >>= next = verdict (faults ++ faults') b := by
  cases faults with
  | nil => exact h rfl
  | cons rule faults => rfl

/-- There is a value only if nothing is broken. -/
theorem verdict_eq_ok_iff {α : Type} {faults : List ContentRule} {a b : α} :
    verdict faults a = .ok b ↔ faults = [] ∧ b = a := by
  cases faults <;> simp [verdict, eq_comm]

/-- A failure is due to the first of the broken rules. -/
theorem verdict_eq_error_iff {α : Type} {faults : List ContentRule} {a : α}
    {cause : Cause Refusal} :
    verdict faults a = .error cause ↔ ∃ rule, faults.head? = some rule ∧ cause = rule.cause := by
  cases faults <;> simp [verdict, eq_comm]

/-- The bits of a bit string are checked for unused bits first, then for their number. -/
theorem Prefix.check_eq (policy : Policy) (family : Family) (s : BitString) :
    Prefix.check policy family s =
      if policy.strict ∧ s.hasUnusedBits then .error (.encoding .unusedBitsSet)
      else
        match s.toIpPrefix? family with
        | none => .error (.content (.bits .tooLong))
        | some p => .ok p.bits := by
  unfold Prefix.check
  by_cases hset : policy.strict = true ∧ s.hasUnusedBits = true
  · rw [if_pos hset, if_pos hset]
  · rw [if_neg hset, if_neg hset]
    unfold Prefix.ofBitString BitString.toIpPrefix?
    by_cases hfits : s.octets.length ≤ family.octetCount
    · have hle : s.length ≤ 128 := (BitString.length_le_width hfits).trans family.width_le
      -- Without set unused bits there is nothing to be cleared, so no second check can fail.
      have hclear : ¬(policy.strict = true ∧
          (Address.ofOctets s.octets).clearAfter s.length ≠ Address.ofOctets s.octets) := by
        rintro ⟨hstrict, hne⟩
        have hunused : s.hasUnusedBits = false := by simpa [hstrict] using hset
        rw [BitString.clearAfter_ofOctets (hfits.trans family.octetCount_le),
          BitString.clearedOctets_eq hunused] at hne
        exact hne rfl
      rw [if_neg (Nat.not_lt.mpr hfits), dif_pos hfits]
      simp only [Prefix.new?, dif_pos hle, Prefix.ofAddress, if_neg hclear]
      rfl
    · rw [if_pos (Nat.lt_of_not_le hfits), dif_neg hfits]
      rfl

/-- The bits of the prefix that a bit string stands for fit the family. -/
theorem BitString.new?_bits_of_toIpPrefix? {s : BitString} {p : IpPrefix}
    (h : s.toIpPrefix? family = some p) : IpPrefix.new? family p.bits = some p := by
  unfold toIpPrefix? at h
  split_ifs at h
  cases h
  exact dif_pos _

/-- Different families have different octets. -/
theorem Family.octets_injective : Function.Injective Family.octets := fun _ _ h =>
  Option.some.inj ((ofOctets?_eq_some_iff.mpr rfl).symm.trans (ofOctets?_eq_some_iff.mpr h))

namespace RawBlock

section Prefixes

variable {count : ℕ} {before : Option BitString} {s : BitString} {ss : List BitString}

/-- Checking a bit string fails for the first rule that it breaks. -/
theorem checkPrefix_of_some {p : IpPrefix} (hp : s.toIpPrefix? family = some p) :
    checkPrefix policy family count (before.bind (BitString.toIpPrefix? family)) s =
      verdict (bitFaults policy family count before s) p := by
  unfold bitFaults
  rw [hp]
  have hcheck := Prefix.check_eq policy family s
  rw [hp] at hcheck
  by_cases hset : policy.strict = true ∧ s.hasUnusedBits = true
  · rw [if_pos hset] at hcheck ⊢
    rw [checkPrefix, hcheck]
    rfl
  · rw [if_neg hset] at hcheck ⊢
    rw [checkPrefix_of_check hcheck (BitString.new?_bits_of_toIpPrefix? hp)]
    dsimp only
    split_ifs <;> rfl

/-- Checking a bit string that is too long fails for the first rule that it breaks. -/
theorem checkPrefix_of_none (policy : Policy) (count : ℕ) (before : Option BitString)
    (hnone : s.toIpPrefix? family = none) :
    ∃ rule faults, bitFaults policy family count before s = rule :: faults ∧
      checkPrefix policy family count (before.bind (BitString.toIpPrefix? family)) s =
        .error rule.cause := by
  unfold bitFaults checkPrefix
  rw [Prefix.check_eq, hnone]
  split_ifs <;> exact ⟨_, _, rfl, rfl⟩

/-- Checking bit strings fails for the first rule that one of them breaks. -/
theorem checkPrefixes_eq (policy : Policy) (family : Family) (count : ℕ)
    (before : Option BitString) (ss : List BitString) :
    checkPrefixes policy family count (before.bind (BitString.toIpPrefix? family)) ss =
      verdict (prefixFaults policy family count before ss)
        (ss.filterMap (BitString.toIpPrefix? family)) := by
  induction ss generalizing count before with
  | nil => rfl
  | cons s ss ih =>
    rw [checkPrefixes_cons, prefixFaults]
    cases hp : s.toIpPrefix? family with
    | none =>
      obtain ⟨rule, faults, hfaults, hcheck⟩ :=
        checkPrefix_of_none policy count before hp
      rw [hcheck, hfaults]
      rfl
    | some p =>
      have hrest := ih (count + 1) (some s)
      rw [Option.bind_some, hp] at hrest
      rw [checkPrefix_of_some hp, List.filterMap_cons_some hp]
      apply verdict_bind
      intro _
      rw [hrest, verdict_map]

/-- Each of the bit strings that break no rule stands for a prefix. -/
theorem length_filterMap_of_prefixFaults (h : prefixFaults policy family count before ss = []) :
    (ss.filterMap (BitString.toIpPrefix? family)).length = ss.length := by
  have hoctets := (prefixFaults_eq_nil_iff.mp h).2.1
  rw [List.length_filterMap_eq_countP, List.countP_eq_length]
  intro s hs
  exact (BitString.isSome_toIpPrefix?_iff family s).mpr (hoctets s hs)

end Prefixes

section Family

variable {b : RawBlock} {before : List RawBlock} {families : List Family}

/-- Checking an unknown family fails for the first rule that it breaks. -/
theorem checkFamily_of_none (hbefore : before.map (·.family) = families.map Family.octets)
    (hnone : Family.ofOctets? b.family = none) :
    ∃ rule faults, b.familyFaults before = rule :: faults ∧
      (b.checkFamily families).mapError Cause.content = .error rule.cause := by
  have hlength := congrArg List.length hbefore
  rw [List.length_map, List.length_map] at hlength
  unfold familyFaults checkFamily
  rw [hnone, hlength]
  split_ifs <;> exact ⟨_, _, rfl, rfl⟩

/-- Checking a known family fails for the first rule that it breaks. -/
theorem checkFamily_of_some (hbefore : before.map (·.family) = families.map Family.octets)
    (hfamily : Family.ofOctets? b.family = some family) :
    (b.checkFamily families).mapError Cause.content =
      verdict (b.familyFaults before) family := by
  have hlength := congrArg List.length hbefore
  rw [List.length_map, List.length_map] at hlength
  have hmem (f : Family) : f.octets ∈ before.map (·.family) ↔ f ∈ families := by
    rw [hbefore]
    exact List.mem_map_of_injective Family.octets_injective
  unfold familyFaults checkFamily
  simp only [hfamily, hlength, hmem]
  split_ifs <;> rfl

/-- The prefixes of a block are checked one by one first, then there must be some. What comes
after the block is checked last. -/
theorem checkPrefixes_bind {α : Type} {next : List IpPrefix → Except (Cause Refusal) α}
    {count : ℕ} {faults : List ContentRule} {a : α}
    (hfamily : Family.ofOctets? b.family = some family)
    (hnext : b.toIpPrefixes.length = b.prefixes.length →
      next b.toIpPrefixes = verdict faults a) :
    (checkPrefixes policy family count none b.prefixes >>= fun ps =>
        if ps.isEmpty then .error (.content .emptyBlock) else next ps) =
      verdict (prefixFaults policy family count none b.prefixes ++
        ((if b.prefixes = [] then [.nonEmpty] else []) ++ faults)) a := by
  have hprefixes : b.toIpPrefixes = b.prefixes.filterMap (BitString.toIpPrefix? family) := by
    rw [toIpPrefixes, hfamily]
  have hcheck : checkPrefixes policy family count none b.prefixes = _ :=
    checkPrefixes_eq policy family count none b.prefixes
  rw [hcheck, ← hprefixes]
  apply verdict_bind
  intro hnone
  have hlength : b.toIpPrefixes.length = b.prefixes.length :=
    hprefixes ▸ length_filterMap_of_prefixFaults hnone
  have hempty : b.toIpPrefixes.isEmpty ↔ b.prefixes = [] := by
    rw [List.isEmpty_iff_length_eq_zero, hlength, List.length_eq_zero_iff]
  simp only [hempty]
  split_ifs
  · rfl
  · exact hnext hlength

end Family

end RawBlock

namespace RawContent

open RawBlock

variable {raw : RawContent}

/-- Checking blocks fails for the first rule that one of them breaks. -/
theorem checkBlocks_eq (policy : Policy) (bs : List RawBlock) {before : List RawBlock}
    {families : List Family}
    (hbefore : before.map (·.family) = families.map Family.octets) :
    checkBlocks policy families (RawBlock.count before) bs =
      verdict (blockFaults policy before bs) (bs.flatMap RawBlock.toIpPrefixes) := by
  induction bs generalizing before families with
  | nil => rfl
  | cons b bs ih =>
    rw [Content.checkBlocks_cons, blockFaults, List.flatMap_cons, RawBlock.faults]
    cases hfamily : Family.ofOctets? b.family with
    | none =>
      obtain ⟨rule, faults, hfaults, hcheck⟩ := checkFamily_of_none hbefore hfamily
      rw [hcheck, hfaults]
      rfl
    | some family =>
      -- The blocks behind this one come after its family and its prefixes.
      have hnext : (before ++ [b]).map (·.family) = (families ++ [family]).map Family.octets := by
        rw [List.map_append, List.map_append, hbefore, List.map_singleton, List.map_singleton,
          Family.ofOctets?_eq_some_iff.mp hfamily]
      have hcount : RawBlock.count (before ++ [b]) =
          RawBlock.count before + b.prefixes.length := by
        rw [count_append, count_cons, count_nil, Nat.add_zero]
      rw [checkFamily_of_some hbefore hfamily, Option.elim_some, List.append_assoc,
        List.append_assoc]
      apply verdict_bind
      intro _
      apply checkPrefixes_bind hfamily
      intro hlength
      rw [hlength, ← hcount, ih hnext, verdict_map]

/-- Checking the version fails for the rule that it breaks. -/
theorem checkVersion_eq (version : Option ℤ) :
    (checkVersion policy.strict version).mapError Cause.content =
      verdict (versionFaults policy version) () := by
  cases version with
  | none => rfl
  | some version =>
    unfold checkVersion versionFaults
    dsimp only
    split_ifs <;> rfl

/-- Checking raw content fails for the first rule that it breaks. -/
theorem check_eq (raw : RawContent) :
    raw.check policy = verdict (raw.faults policy) raw.toContent := by
  unfold check faults
  rw [checkVersion_eq, List.append_assoc]
  apply verdict_bind
  intro _
  have hasn : (checkAsn raw.asn).mapError Cause.content =
      verdict (if 0 ≤ raw.asn ∧ raw.asn ≤ 2 ^ 32 - 1 then [] else [.asnRange])
        (⟨UInt32.ofNat raw.asn.toNat⟩ : Asn) := by
    have hrange : raw.asn < UInt32.size ↔ raw.asn ≤ 2 ^ 32 - 1 := by
      rw [UInt32.size]
      omega
    simp only [checkAsn, hrange]
    split_ifs <;> rfl
  rw [hasn]
  apply verdict_bind
  intro _
  have hstart : ([] : List RawBlock).map (·.family) = ([] : List Family).map Family.octets := rfl
  have hblocks : checkBlocks policy [] 0 raw.blocks = _ := checkBlocks_eq policy raw.blocks hstart
  rw [hblocks]
  exact verdict_map _ _ _

/-- Raw content that is written is decoded exactly if it follows the rules, and as the content
that it stands for. Otherwise decoding fails for the first rule that is broken, and the message
says what is said of this rule. -/
theorem decode_encode_eq_ok_iff_conforms (hlength : raw.encode.length < 2 ^ 32) :
    (∀ c, Content.decode policy raw.encode = .ok c ↔ raw.Conforms policy ∧ c = raw.toContent) ∧
      (¬raw.Conforms policy →
        ∃ failure rule, Content.decode policy raw.encode = .error failure ∧
          (raw.faults policy).head? = some rule ∧ failure.cause = rule.cause ∧
          ContentFailure.message failure =
            rule.text ++ " (at position " ++ toString failure.position ++ ")") := by
  have hdecode : outcome (Content.decode policy raw.encode) = _ := outcome_decode_encode hlength
  rw [check_eq] at hdecode
  constructor
  · intro c
    rw [← outcome_eq_ok_iff, hdecode, verdict_eq_ok_iff, faults_eq_nil_iff]
  · intro hbroken
    cases hresult : Content.decode policy raw.encode with
    | ok c =>
      rw [hresult] at hdecode
      have hnone := (verdict_eq_ok_iff.mp hdecode.symm).1
      exact absurd (faults_eq_nil_iff.mp hnone) hbroken
    | error failure =>
      rw [hresult] at hdecode
      obtain ⟨rule, hfirst, hcause⟩ := verdict_eq_error_iff.mp hdecode.symm
      exact ⟨failure, rule, rfl, hfirst, hcause, ContentRule.message_eq_of_cause hcause⟩

/-- Content with version zero written out and a set unused bit. -/
def lenientSample : RawContent where
  version := some 0
  asn := 64496
  blocks :=
    [⟨[0, 1], [⟨[10, 0, 1], 1, by decide, by decide⟩]⟩,
      ⟨[0, 2], [⟨[32, 1], 0, by decide, by decide⟩]⟩]

/-- Content may follow the rules of one policy and break two rules of another, whose failure
speaks of the first of them. -/
theorem decode_encode_eq_ok_iff_conforms_lenientSample :
    lenientSample.encode.length < 2 ^ 32 ∧
      Content.decode ⟨false, 3⟩ lenientSample.encode = .ok lenientSample.toContent ∧
      lenientSample.faults ⟨true, 3⟩ = [.defaultVersion, .unusedBits] ∧
      ∃ failure, Content.decode ⟨true, 3⟩ lenientSample.encode = .error failure ∧
        failure.cause = .content .explicitVersion ∧
        ContentFailure.message failure =
          "incorrect encoding for SignedPrefixList version 0 (at position 2)" := by
  have hlength : lenientSample.encode.length < 2 ^ 32 := by decide +kernel
  have hconforms : lenientSample.Conforms ⟨false, 3⟩ :=
    faults_eq_nil_iff.mp (by decide +kernel)
  have hfaults : lenientSample.faults ⟨true, 3⟩ = [.defaultVersion, .unusedBits] := by
    decide +kernel
  have hbroken : ¬lenientSample.Conforms ⟨true, 3⟩ := by
    rw [← faults_eq_nil_iff, hfaults]
    exact List.cons_ne_nil _ _
  refine ⟨hlength, ?_, hfaults, ?_⟩
  · exact ((decode_encode_eq_ok_iff_conforms hlength).1 _).mpr ⟨hconforms, rfl⟩
  · obtain ⟨failure, rule, hdecode, hfirst, hcause, hmessage⟩ :=
      (decode_encode_eq_ok_iff_conforms hlength).2 hbroken
    rw [hfaults] at hfirst
    obtain rfl := Option.some.inj hfirst
    have hplace : Content.decode ⟨true, 3⟩ lenientSample.encode =
        .error ⟨.content .explicitVersion, 2⟩ := by decide +kernel
    obtain rfl := Except.error.inj (hdecode.symm.trans hplace)
    exact ⟨_, hdecode, hcause, hmessage⟩

end RawContent

end SignedPrefixes
