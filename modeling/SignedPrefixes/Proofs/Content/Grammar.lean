import SignedPrefixes.Content.Raw
import SignedPrefixes.Proofs.Order
import SignedPrefixes.Proofs.Prefix

/-!
# The rules for signed content

Content as it may be written is signed content if it follows a few rules. They are
stated here without regard to how content is read, and so is what each place of raw
content breaks. Raw content breaks no rule exactly if it follows all of them. Every
rule comes with the words that tell the reader of a report what is wrong.
-/

namespace SignedPrefixes

open Ber

/-- The rules for signed content, as they are broken in some place. -/
inductive ContentRule where
  /-- The version is zero. -/
  | versionZero
  /-- The version zero is left out where the encoding has to be DER. -/
  | defaultVersion
  /-- The AS number has 32 bits. -/
  | asnRange
  /-- There are at most two blocks. -/
  | twoBlocks
  /-- The octets at the front of a block name a family. -/
  | knownFamily
  /-- There is one block of the family. -/
  | oneBlock (family : Family)
  /-- No IPv4 block follows an IPv6 block. -/
  | familyOrder
  /-- Unused bits are zero where the encoding has to be DER. -/
  | unusedBits
  /-- A bit string has no more octets than an address of its family. -/
  | addressSize
  /-- The prefixes of a block ascend strictly. -/
  | ascending
  /-- There are fewer prefixes than the bound of the policy. -/
  | prefixCount
  /-- A block has prefixes. -/
  | nonEmpty
  deriving DecidableEq, Repr

namespace ContentRule

/-- What is said of content that breaks a rule. -/
def text : ContentRule → String
  | versionZero => "unsupported SignedPrefixList version"
  | defaultVersion => "incorrect encoding for SignedPrefixList version 0"
  | asnRange => "malformed AS identifier"
  | twoBlocks => "more than two AddressFamilyPrefixes"
  | knownFamily => "unknown address family"
  | oneBlock .ipv4 => "addressFamilyIPv4 appeared twice"
  | oneBlock .ipv6 => "addressFamilyIPv6 appeared twice"
  | familyOrder => "invalid sorting, IPv6 before IPv4"
  | unusedBits => "non-zero unused bits in DER bit string"
  | addressSize => "invalid prefix encoding: address too long for family"
  | ascending => "invalid addressPrefixes sorting"
  | prefixCount => "too many addressPrefixes entries"
  | nonEmpty => "empty AddressFamilyPrefixes"

/-- The cause of a failure that is due to a broken rule. -/
def cause : ContentRule → Cause Refusal
  | versionZero => .content .unsupportedVersion
  | defaultVersion => .content .explicitVersion
  | asnRange => .content .malformedAsn
  | twoBlocks => .content .manyBlocks
  | knownFamily => .content .unknownFamily
  | oneBlock family => .content (.repeatedFamily family)
  | familyOrder => .content .familyOrder
  | unusedBits => .encoding .unusedBitsSet
  | addressSize => .content (.bits .tooLong)
  | ascending => .content .unsorted
  | prefixCount => .content .manyPrefixes
  | nonEmpty => .content .emptyBlock

/-- A failure for a broken rule says what is said of the rule, and where. -/
theorem message_eq_of_cause {rule : ContentRule} {failure : ContentFailure}
    (h : failure.cause = rule.cause) :
    ContentFailure.message failure =
      rule.text ++ " (at position " ++ toString failure.position ++ ")" := by
  obtain ⟨_, position⟩ := failure
  subst h
  cases rule with
  | oneBlock family => cases family <;> rfl
  | _ => rfl

end ContentRule

/-- The prefix of a family that consists of the bits of a bit string, with unused bits
cleared, if an address of the family has as many octets. -/
def BitString.toIpPrefix? (family : Family) (s : BitString) : Option IpPrefix :=
  if h : s.octets.length ≤ family.octetCount then
    some
      { family
        bits := .ofAddress (.ofOctets s.octets) s.length
          ((length_le_width h).trans family.width_le)
        length_le := length_le_width h }
  else none

namespace RawBlock

/-- The prefixes that the bit strings of a block stand for. -/
def toIpPrefixes (b : RawBlock) : List IpPrefix :=
  match Family.ofOctets? b.family with
  | none => []
  | some family => b.prefixes.filterMap (BitString.toIpPrefix? family)

/-- The rules for a block of a family. -/
structure Conforms (policy : Policy) (family : Family) (b : RawBlock) : Prop where
  /-- The octets name the family. -/
  family_eq : b.family = family.octets
  /-- The block is not empty. -/
  prefixes_ne_nil : b.prefixes ≠ []
  /-- No bit string has more octets than an address of the family. -/
  length_octets_le : ∀ s ∈ b.prefixes, s.octets.length ≤ family.octetCount
  /-- No unused bit is set where the encoding has to be DER. -/
  hasUnusedBits_eq : policy.strict = true → ∀ s ∈ b.prefixes, s.hasUnusedBits = false
  /-- The prefixes ascend strictly once unused bits are cleared. -/
  pairwise_prefixes : (b.prefixes.filterMap (BitString.toIpPrefix? family)).Pairwise (· < ·)

/-- The rules that a bit string breaks, in the order in which they apply. The bit string
`before` precedes it in its block, and `count` bit strings precede it in all blocks. -/
def bitFaults (policy : Policy) (family : Family) (count : ℕ) (before : Option BitString)
    (s : BitString) : List ContentRule :=
  (if policy.strict ∧ s.hasUnusedBits then [.unusedBits] else []) ++
    match s.toIpPrefix? family with
    | none => [.addressSize]
    | some p =>
      (if (before.bind (BitString.toIpPrefix? family)).any (p ≤ ·) then [.ascending] else []) ++
      (if policy.maxPrefixes ≤ count + 1 then [.prefixCount] else [])

/-- The rules that the bit strings of a block break. -/
def prefixFaults (policy : Policy) (family : Family) :
    (count : ℕ) → (before : Option BitString) → List BitString → List ContentRule
  | _, _, [] => []
  | count, before, s :: rest =>
    bitFaults policy family count before s ++ prefixFaults policy family (count + 1) (some s) rest

/-- The rules that the family of a block breaks after other blocks. -/
def familyFaults (before : List RawBlock) (b : RawBlock) : List ContentRule :=
  (if 2 ≤ before.length then [.twoBlocks] else []) ++
    match Family.ofOctets? b.family with
    | none => [.knownFamily]
    | some family =>
      (if family.octets ∈ before.map (·.family) then [.oneBlock family] else []) ++
      (if family = .ipv4 ∧ Family.ipv6.octets ∈ before.map (·.family) then [.familyOrder] else [])

/-- The number of bit strings in blocks. -/
def count (blocks : List RawBlock) : ℕ := (blocks.map (·.prefixes.length)).sum

/-- The rules that a block breaks after other blocks. -/
def faults (policy : Policy) (before : List RawBlock) (b : RawBlock) : List ContentRule :=
  b.familyFaults before ++
    ((Family.ofOctets? b.family).elim [] fun family =>
      prefixFaults policy family (count before) none b.prefixes) ++
    if b.prefixes = [] then [.nonEmpty] else []

end RawBlock

namespace RawContent

/-- The content that raw content stands for. -/
def toContent (raw : RawContent) : Content :=
  ⟨⟨UInt32.ofNat raw.asn.toNat⟩, raw.blocks.flatMap RawBlock.toIpPrefixes⟩

/-- The families that blocks may have, in the order of the blocks. -/
def familyOrders : List (List Family) := [[], [.ipv4], [.ipv6], [.ipv4, .ipv6]]

/-- The rules for signed content. -/
structure Conforms (policy : Policy) (raw : RawContent) : Prop where
  /-- The version is left out, or zero where the encoding need not be DER. -/
  version_eq : raw.version = none ∨ raw.version = some 0 ∧ policy.strict = false
  /-- The AS number has 32 bits. -/
  asn_range : 0 ≤ raw.asn ∧ raw.asn ≤ 2 ^ 32 - 1
  /-- There is at most one block of each family, in the order of families, and it follows the
  rules. -/
  blocks : ∃ families ∈ familyOrders, List.Forall₂ (RawBlock.Conforms policy) families raw.blocks
  /-- All prefixes together are none or fewer than the bound. -/
  count_lt : RawBlock.count raw.blocks = 0 ∨ RawBlock.count raw.blocks < policy.maxPrefixes

/-- The rules that the version breaks. -/
def versionFaults (policy : Policy) : Option ℤ → List ContentRule
  | none => []
  | some version =>
    if version ≠ 0 then [.versionZero]
    else if policy.strict then [.defaultVersion]
    else []

/-- The rules that blocks break after other blocks. -/
def blockFaults (policy : Policy) :
    (before : List RawBlock) → List RawBlock → List ContentRule
  | _, [] => []
  | before, b :: rest => b.faults policy before ++ blockFaults policy (before ++ [b]) rest

/-- The rules that raw content breaks, from its front to its back. -/
def faults (policy : Policy) (raw : RawContent) : List ContentRule :=
  versionFaults policy raw.version ++
    (if 0 ≤ raw.asn ∧ raw.asn ≤ 2 ^ 32 - 1 then [] else [.asnRange]) ++
    blockFaults policy [] raw.blocks

end RawContent

/-- A bit string stands for a prefix if its octets fit an address. -/
theorem BitString.isSome_toIpPrefix?_iff (family : Family) (s : BitString) :
    (s.toIpPrefix? family).isSome = true ↔ s.octets.length ≤ family.octetCount := by
  unfold toIpPrefix?
  split_ifs with h <;> simp [h]

namespace RawBlock

variable {policy : Policy} {family : Family} {b : RawBlock} {before : List RawBlock}

@[simp] theorem count_nil : count [] = 0 := rfl

/-- The bit strings of a block count besides those of the others. -/
@[simp] theorem count_cons (b : RawBlock) (bs : List RawBlock) :
    count (b :: bs) = b.prefixes.length + count bs := by
  simp [count]

/-- The bit strings of blocks are counted block by block. -/
theorem count_append (bs bs' : List RawBlock) : count (bs ++ bs') = count bs + count bs' := by
  simp [count]

/-- A bit string breaks no rule if it stands for a prefix after the one before it, below the bound,
and its unused bits are zero where they have to be. -/
theorem bitFaults_eq_nil_iff {count : ℕ} {before : Option BitString} {s : BitString} :
    bitFaults policy family count before s = [] ↔
      (policy.strict = true → s.hasUnusedBits = false) ∧
      ∃ p, s.toIpPrefix? family = some p ∧
        (∀ q ∈ before.bind (BitString.toIpPrefix? family), q < p) ∧
        count + 1 < policy.maxPrefixes := by
  unfold bitFaults
  cases s.toIpPrefix? family with
  | none => simp
  | some p => simp [Option.any_eq_true]

/-- Prefixes go on from the one before them, if there is one, by their first one. -/
theorem isChain_toList_append_cons_iff {before : Option IpPrefix} {p : IpPrefix}
    {ps : List IpPrefix} :
    (before.toList ++ p :: ps).IsChain (· < ·) ↔
      (∀ q ∈ before, q < p) ∧ (p :: ps).IsChain (· < ·) := by
  cases before <;> simp

/-- The prefixes of bit strings that break no rule form a chain, which goes on from the bit
string before them. -/
theorem prefixFaults_eq_nil_iff {count : ℕ} {before : Option BitString} {ss : List BitString} :
    prefixFaults policy family count before ss = [] ↔
      (policy.strict = true → ∀ s ∈ ss, s.hasUnusedBits = false) ∧
      (∀ s ∈ ss, s.octets.length ≤ family.octetCount) ∧
      ((before.bind (BitString.toIpPrefix? family)).toList ++
        ss.filterMap (BitString.toIpPrefix? family)).IsChain (· < ·) ∧
      (ss = [] ∨ count + ss.length < policy.maxPrefixes) := by
  induction ss generalizing count before with
  | nil => cases before.bind (BitString.toIpPrefix? family) <;> simp [prefixFaults]
  | cons s ss ih =>
    have hcount : ((ss = [] ∨ count + 1 + ss.length < policy.maxPrefixes) ∧
        count + 1 < policy.maxPrefixes) ↔ count + (ss.length + 1) < policy.maxPrefixes := by
      cases ss with
      | nil => simp
      | cons s ss => simp only [List.length_cons, reduceCtorEq, false_or]; omega
    -- The first bit string is compared with the one before it, the others go on from the first.
    rw [prefixFaults, List.append_eq_nil_iff, bitFaults_eq_nil_iff, ih]
    have hfits := BitString.isSome_toIpPrefix?_iff family s
    cases hp : s.toIpPrefix? family with
    | none =>
      rw [hp] at hfits
      simp [← hfits]
    | some p =>
      rw [hp] at hfits
      have hfits := hfits.mp rfl
      simp only [List.filterMap_cons, hp, isChain_toList_append_cons_iff, List.forall_mem_cons,
        List.length_cons, ← hcount, Option.bind_some, Option.toList_some, List.singleton_append,
        Option.some.injEq, reduceCtorEq, false_or]
      constructor
      · rintro ⟨⟨hunused, _, rfl, hbefore, hone⟩, hrest, hoctets, hascending, hmax⟩
        exact ⟨fun h => ⟨hunused h, hrest h⟩, ⟨hfits, hoctets⟩, ⟨hbefore, hascending⟩, hmax, hone⟩
      · rintro ⟨hunused, ⟨-, hoctets⟩, ⟨hbefore, hascending⟩, hmax, hone⟩
        exact ⟨⟨fun h => (hunused h).1, p, rfl, hbefore, hone⟩, fun h => (hunused h).2, hoctets,
          hascending, hmax⟩

/-- A block that follows the rules has prefixes. -/
theorem Conforms.length_prefixes_ne_zero (hb : b.Conforms policy family) :
    b.prefixes.length ≠ 0 := fun h => hb.prefixes_ne_nil (List.eq_nil_of_length_eq_zero h)

/-- A family may follow blocks of other families, but IPv4 may not follow IPv6. -/
def FollowsFamilies (family : Family) (before : List RawBlock) : Prop :=
  before.length < 2 ∧ family.octets ∉ before.map (·.family) ∧
    (family = .ipv4 → Family.ipv6.octets ∉ before.map (·.family))

/-- The first block may have any family. -/
theorem followsFamilies_nil (family : Family) : FollowsFamilies family [] := by
  simp [FollowsFamilies]

/-- After one block only a block of the other family may come, in the order of families. -/
theorem Conforms.followsFamilies_iff {family' : Family} (hb : b.Conforms policy family) :
    FollowsFamilies family' [b] ↔ family = .ipv4 ∧ family' = .ipv6 := by
  unfold FollowsFamilies
  rw [List.map_singleton, hb.family_eq]
  cases family <;> cases family' <;> simp [Family.octets, Family.afi]

/-- The family of a block breaks no rule if it is known and may follow those before it. -/
theorem familyFaults_eq_nil_iff :
    b.familyFaults before = [] ↔
      ∃ family, Family.ofOctets? b.family = some family ∧ FollowsFamilies family before := by
  unfold familyFaults FollowsFamilies
  cases Family.ofOctets? b.family with
  | none => simp
  | some family => simp

/-- A block breaks no rule if it follows the rules for a family that may come next, and its prefixes
are below the bound with those before them. -/
theorem faults_eq_nil_iff :
    b.faults policy before = [] ↔
      ∃ family, b.Conforms policy family ∧ FollowsFamilies family before ∧
        count before + b.prefixes.length < policy.maxPrefixes := by
  unfold faults
  rw [List.append_eq_nil_iff, List.append_eq_nil_iff, familyFaults_eq_nil_iff]
  constructor
  · rintro ⟨⟨⟨family, hfamily, hfollows⟩, hprefixes⟩, hempty⟩
    have hne : b.prefixes ≠ [] := by simpa using hempty
    rw [hfamily, Option.elim_some, prefixFaults_eq_nil_iff] at hprefixes
    obtain ⟨hunused, hoctets, hchain, hcount⟩ := hprefixes
    exact ⟨family, ⟨Family.ofOctets?_eq_some_iff.mp hfamily, hne, hoctets, hunused,
      List.isChain_iff_pairwise.mp hchain⟩, hfollows, hcount.resolve_left hne⟩
  · rintro ⟨family, hb, hfollows, hcount⟩
    have hfamily := Family.ofOctets?_eq_some_iff.mpr hb.family_eq
    refine ⟨⟨⟨family, hfamily, hfollows⟩, ?_⟩, by simpa using hb.prefixes_ne_nil⟩
    rw [hfamily, Option.elim_some, prefixFaults_eq_nil_iff]
    exact ⟨hb.hasUnusedBits_eq, hb.length_octets_le,
      List.isChain_iff_pairwise.mpr hb.pairwise_prefixes, .inr hcount⟩

end RawBlock

namespace RawContent

open RawBlock

variable {policy : Policy} {raw : RawContent}

/-- The version breaks no rule if it is left out, or is zero where the encoding need not be DER. -/
theorem versionFaults_eq_nil_iff {version : Option ℤ} :
    versionFaults policy version = [] ↔
      version = none ∨ version = some 0 ∧ policy.strict = false := by
  cases version with
  | none => simp [versionFaults]
  | some version =>
    by_cases hzero : version = 0
    · cases hstrict : policy.strict <;> simp [versionFaults, hzero, hstrict]
    · simp [versionFaults, hzero]

/-- One block may have either family. -/
theorem exists_familyOrders_singleton {r : Family → RawBlock → Prop} {b : RawBlock} :
    (∃ families ∈ familyOrders, List.Forall₂ r families [b]) ↔ ∃ family, r family b := by
  constructor
  · rintro ⟨families, -, h⟩
    cases h with
    | cons hb _ => exact ⟨_, hb⟩
  · rintro ⟨family, hb⟩
    refine ⟨[family], ?_, .cons hb .nil⟩
    cases family <;> decide

/-- Two blocks are IPv4 and IPv6, in this order. -/
theorem exists_familyOrders_pair {r : Family → RawBlock → Prop} {b b' : RawBlock} :
    (∃ families ∈ familyOrders, List.Forall₂ r families [b, b']) ↔ r .ipv4 b ∧ r .ipv6 b' := by
  simp [familyOrders]

/-- Blocks that break no rule are those of one family or of both in their order. -/
theorem blockFaults_eq_nil_iff {bs : List RawBlock} :
    blockFaults policy [] bs = [] ↔
      (∃ families ∈ familyOrders, List.Forall₂ (RawBlock.Conforms policy) families bs) ∧
      (count bs = 0 ∨ count bs < policy.maxPrefixes) := by
  -- Families allow two blocks at most, so the cases are the numbers of blocks.
  match bs with
  | [] => simp [blockFaults, count, familyOrders]
  | [b] =>
    simp only [blockFaults, List.append_nil, RawBlock.faults_eq_nil_iff,
      exists_familyOrders_singleton, followsFamilies_nil, count_nil, count_cons, true_and,
      Nat.zero_add, Nat.add_zero]
    constructor
    · rintro ⟨family, hb, hcount⟩
      exact ⟨⟨family, hb⟩, .inr hcount⟩
    · rintro ⟨⟨family, hb⟩, hcount⟩
      exact ⟨family, hb, hcount.resolve_left hb.length_prefixes_ne_zero⟩
  | [b, b'] =>
    simp only [blockFaults, List.append_nil, List.nil_append, List.append_eq_nil_iff,
      RawBlock.faults_eq_nil_iff, exists_familyOrders_pair, followsFamilies_nil, count_nil,
      count_cons, true_and, Nat.zero_add, Nat.add_zero]
    constructor
    · rintro ⟨⟨family, hb, -⟩, family', hb', hfollows, hcount⟩
      obtain ⟨rfl, rfl⟩ := hb.followsFamilies_iff.mp hfollows
      exact ⟨⟨hb, hb'⟩, .inr hcount⟩
    · rintro ⟨⟨hb, hb'⟩, hcount⟩
      have hne := hb.length_prefixes_ne_zero
      have hlt := hcount.resolve_left (by omega)
      exact ⟨⟨.ipv4, hb, by omega⟩, .ipv6, hb', hb.followsFamilies_iff.mpr ⟨rfl, rfl⟩, hlt⟩
  | b :: b' :: b'' :: bs =>
    have hmany : b''.faults policy [b, b'] ≠ [] := by
      rw [Ne, RawBlock.faults_eq_nil_iff]
      rintro ⟨family, -, ⟨hlength, -⟩, -⟩
      exact absurd hlength (lt_irrefl 2)
    simp [blockFaults, hmany, familyOrders]

/-- Raw content breaks no rule exactly if it follows the rules. -/
theorem faults_eq_nil_iff : raw.faults policy = [] ↔ raw.Conforms policy := by
  unfold faults
  rw [List.append_eq_nil_iff, List.append_eq_nil_iff, versionFaults_eq_nil_iff,
    blockFaults_eq_nil_iff]
  constructor
  · rintro ⟨⟨hversion, hasn⟩, hblocks, hcount⟩
    exact ⟨hversion, by simpa using hasn, hblocks, hcount⟩
  · rintro ⟨hversion, hasn, hblocks, hcount⟩
    exact ⟨⟨hversion, if_pos hasn⟩, hblocks, hcount⟩

end RawContent

end SignedPrefixes
