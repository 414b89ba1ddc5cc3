import SignedPrefixes.Ber.Failure
import SignedPrefixes.Content.Refusal
import SignedPrefixes.Content.Writer

/-!
# Content before it is checked

The notation for signed content allows more than what is accepted: any integers,
any octets as a family, and blocks and prefixes in any number and order. Raw
content is whatever follows the notation. It can be written in DER, and it can be
checked without being written. Checked content has one raw form, and writing that
form is writing the content.
-/

namespace SignedPrefixes

/-- A block as it may be written. -/
structure RawBlock where
  /-- The octets that should name a family. -/
  family : Octets
  /-- The bit strings that should be prefixes. -/
  prefixes : List BitString
  deriving DecidableEq, Repr

/-- Content as it may be written. -/
structure RawContent where
  /-- The version, which need not be there. -/
  version : Option Int
  /-- The integer that should be an AS number. -/
  asn : Int
  /-- The blocks in their order. -/
  blocks : List RawBlock
  deriving DecidableEq, Repr

namespace RawBlock

/-- The encoding of a block. -/
def encode (b : RawBlock) : Octets :=
  Der.sequence (Der.octetString b.family ++ Der.sequence (b.prefixes.flatMap Der.bitString))

/-- The raw form of the prefixes of a family. -/
def ofPrefixes (family : Family) (prefixes : List IpPrefix) : RawBlock :=
  ⟨family.octets, prefixes.map fun p => p.bits.toBitString⟩

/-- The prefixes that bit strings stand for, in a family. They must ascend strictly,
also from the prefix before them, and there are `count` prefixes before them in all
blocks. The first bit string at fault decides the failure. -/
def checkPrefixes (policy : Policy) (family : Family) :
    (count : Nat) → (before : Option IpPrefix) → List BitString →
      Except (Ber.Cause Refusal) (List IpPrefix)
  | _, _, [] => .ok []
  | count, before, s :: rest => do
    if policy.strict ∧ s.hasUnusedBits then throw (.encoding .unusedBitsSet)
    match Prefix.ofBitString family policy.strict s with
    | .error fault => throw (.content (.bits fault))
    | .ok bits =>
      match IpPrefix.new? family bits with
      | none => throw (.content .misfit)
      | some p =>
        if before.any (p ≤ ·) then throw (.content .unsorted)
        if policy.maxPrefixes ≤ count + 1 then throw (.content .manyPrefixes)
        return p :: (← checkPrefixes policy family (count + 1) (some p) rest)

/-- The family of a block that comes after blocks of the given families. -/
def checkFamily (b : RawBlock) (before : List Family) : Except Refusal Family :=
  if 2 ≤ before.length then .error .manyBlocks
  else
    match Family.ofOctets? b.family with
    | none => .error .unknownFamily
    | some family =>
      if family ∈ before then .error (.repeatedFamily family)
      else if family = .ipv4 ∧ .ipv6 ∈ before then .error .familyOrder
      else .ok family

end RawBlock

namespace RawContent

/-- The encoding of the version. -/
def encodeVersion : Option Int → Octets
  | none => []
  | some version => Der.constructed Ber.Tag.context0 (Der.integer version)

/-- The encoding of raw content. -/
def encode (c : RawContent) : Octets :=
  Der.sequence
    (encodeVersion c.version ++
      (Der.integer c.asn ++ Der.sequence (c.blocks.flatMap RawBlock.encode)))

/-- The raw form of content. Families without prefixes have no block. -/
def ofContent (c : Content) : RawContent where
  version := none
  asn := c.asn.number.toNat
  blocks :=
    [RawBlock.ofPrefixes .ipv4 c.ipv4Prefixes, RawBlock.ofPrefixes .ipv6 c.ipv6Prefixes].filter
      (!·.prefixes.isEmpty)

/-- Checks the version, which must not be written out if it has to be DER. -/
def checkVersion (strict : Bool) : Option Int → Except Refusal Unit
  | none => .ok ()
  | some version =>
    if version ≠ 0 then .error .unsupportedVersion
    else if strict then .error .explicitVersion
    else .ok ()

/-- The AS number that an integer stands for. -/
def checkAsn (n : Int) : Except Refusal Asn :=
  if 0 ≤ n ∧ n < UInt32.size then .ok ⟨UInt32.ofNat n.toNat⟩ else .error .malformedAsn

/-- The prefixes of blocks that come after blocks of the given families, which have
`count` prefixes together. -/
def checkBlocks (policy : Policy) :
    (before : List Family) → (count : Nat) → List RawBlock →
      Except (Ber.Cause Refusal) (List IpPrefix)
  | _, _, [] => .ok []
  | before, count, b :: rest => do
    let family ← (b.checkFamily before).mapError .content
    let prefixes ← RawBlock.checkPrefixes policy family count none b.prefixes
    if prefixes.isEmpty then throw (.content .emptyBlock)
    return prefixes ++ (← checkBlocks policy (before ++ [family]) (count + prefixes.length) rest)

/-- The content that raw content stands for, or the first thing that is wrong with it. -/
def check (policy : Policy) (c : RawContent) : Except (Ber.Cause Refusal) Content := do
  (checkVersion policy.strict c.version).mapError .content
  let asn ← (checkAsn c.asn).mapError .content
  let prefixes ← checkBlocks policy [] 0 c.blocks
  return ⟨asn, prefixes⟩

/-- The raw form of the prefixes of a family is written as the prefixes are. -/
theorem encode_ofPrefixes (family : Family) (prefixes : List IpPrefix) :
    (RawBlock.ofPrefixes family prefixes).encode =
      Der.sequence (family.encode ++ Der.sequence (prefixes.flatMap fun p => p.bits.encode)) := by
  simp only [RawBlock.encode, RawBlock.ofPrefixes, List.flatMap_map]
  rfl

/-- Writing the raw form of content is writing the content. -/
theorem encode_ofContent (c : Content) : (ofContent c).encode = c.encode := by
  have hempty (family : Family) (prefixes : List IpPrefix) :
      (RawBlock.ofPrefixes family prefixes).prefixes.isEmpty = prefixes.isEmpty := by
    cases prefixes <;> rfl
  unfold encode Content.encode ofContent Content.encodeBlock
  cases h4 : c.ipv4Prefixes.isEmpty <;> cases h6 : c.ipv6Prefixes.isEmpty <;>
    simp [List.filter, hempty, h4, h6, encode_ofPrefixes, encodeVersion, Asn.encode]

end RawContent

end SignedPrefixes
