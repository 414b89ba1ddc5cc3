import SignedPrefixes.Ber.OctetString
import SignedPrefixes.Ber.Primitive
import SignedPrefixes.Content
import SignedPrefixes.Content.Refusal

/-!
# Reading content

Content is read from front to back and checked on the way, so the first value
that breaks a rule decides the failure. A policy asks for DER or also allows BER,
and it bounds the number of prefixes of both families together.
-/

namespace SignedPrefixes

open Ber Ber.Reader

/-- Reads an AS number. -/
def Asn.reader (rules : Rules) : Reader Refusal Asn := Asn.mk <$> unsigned32 rules .malformedAsn

/-- Reads a family. Unknown and missing families are reported at the start of the
value around it. -/
def Family.reader (rules : Rules) (enclosing : Nat) : Reader Refusal Family := do
  match Family.ofOctets? (← octetString rules enclosing) with
  | some family => return family
  | none => refuse .unknownFamily enclosing

/-- Reads a prefix of a family, if a bit string comes next. Its faults are
reported at the start of the value around it. -/
def Prefix.reader? (rules : Rules) (family : Family) (strict : Bool) (enclosing : Nat) :
    Reader Refusal (Option Prefix) := do
  match ← bitString? rules with
  | none => return none
  | some s =>
    match Prefix.ofBitString family strict s with
    | .ok p => return some p
    | .error fault => refuse (.bits fault) enclosing

namespace Content

/-- Prefixes being read, the last one first, and the number of those and of the
ones in blocks before. -/
structure Progress where
  /-- The prefixes of this block. -/
  reversed : List IpPrefix
  /-- The number of prefixes of all blocks. -/
  count : Nat
  deriving DecidableEq, Repr

/-- Reads one more prefix of a block. It must come after the one before it, and the
number of prefixes must stay below the bound. -/
def nextPrefix? (rules : Rules) (policy : Policy) (family : Family) (enclosing : Nat)
    (progress : Progress) : Reader Refusal (Option Progress) := do
  match ← Prefix.reader? rules family policy.strict enclosing with
  | none => return none
  | some bits =>
    match IpPrefix.new? family bits with
    | none => refuse .misfit enclosing
    | some p =>
      if progress.reversed.head?.any (p ≤ ·) then refuse .unsorted enclosing
      if policy.maxPrefixes ≤ progress.count + 1 then refuse .manyPrefixes enclosing
      return some ⟨p :: progress.reversed, progress.count + 1⟩

/-- Reads the prefixes of a block, given the number of prefixes in blocks before. -/
def readPrefixes (rules : Rules) (policy : Policy) (family : Family) (before : Nat) :
    Reader Refusal (List IpPrefix) :=
  sequence rules fun start => do
    let progress ← iterate (nextPrefix? rules policy family start) ⟨[], before⟩
    return progress.reversed.reverse

/-- The prefixes of one family. -/
structure Block where
  /-- The family of all prefixes. -/
  family : Family
  /-- The prefixes in their order. -/
  prefixes : List IpPrefix
  deriving DecidableEq, Repr

/-- Why a block of a family cannot follow the given blocks. -/
def familyRefusal? (family : Family) (blocks : List Block) : Option Refusal :=
  if blocks.any (·.family = family) then some (.repeatedFamily family)
  else if family = .ipv4 ∧ blocks.any (·.family = .ipv6) then some .familyOrder
  else none

/-- Reads one more block, given the blocks before it with the last one first. -/
def nextBlock? (rules : Rules) (policy : Policy) (blocks : List Block) :
    Reader Refusal (Option (List Block)) :=
  sequence? rules fun start => do
    if 2 ≤ blocks.length then refuse .manyBlocks start
    let family ← Family.reader rules start
    if let some refusal := familyRefusal? family blocks then refuse refusal start
    let before := (blocks.flatMap (·.prefixes)).length
    let prefixes ← readPrefixes rules policy family before
    if prefixes.isEmpty then refuse .emptyBlock start
    return ⟨family, prefixes⟩ :: blocks

/-- Reads the version, which need not be there. Only version zero exists, and DER
does not write it out. -/
def readVersion (rules : Rules) (strict : Bool) (enclosing : Nat) : Reader Refusal Unit := do
  match ← constructed? rules Tag.context0 fun _ => unsigned32 rules .unsupportedVersion with
  | none => return ()
  | some version =>
    if version ≠ 0 then refuse .unsupportedVersion enclosing
    if strict then refuse .explicitVersion enclosing

/-- Reads content. The rules for encoding and the strictness of the policy are
independent here. -/
def reader (rules : Rules) (policy : Policy) : Reader Refusal Content :=
  sequence rules fun start => do
    readVersion rules policy.strict start
    let asn ← Asn.reader rules
    let blocks ← sequence rules fun _ => iterate (nextBlock? rules policy) []
    return ⟨asn, blocks.reverse.flatMap (·.prefixes)⟩

/-- The rules for encoding that a policy asks for. -/
def rulesOf (policy : Policy) : Rules := if policy.strict then .der else .ber

/-- Reads octets that hold content and nothing else. -/
def decode (policy : Policy) (os : Octets) : Except ContentFailure Content :=
  match reader (rulesOf policy) policy (Input.ofOctets os) with
  | .error failure => .error failure
  | .ok (c, after) =>
    if after.rest.isEmpty then .ok c else .error ⟨.content .trailingOctets, after.position⟩

/-- Octets are decoded if content is read from them and none are left. -/
theorem decode_eq_ok_iff {policy : Policy} {os : Octets} {c : Content} :
    decode policy os = .ok c ↔
      ∃ after, reader (rulesOf policy) policy (Input.ofOctets os) = .ok (c, after) ∧
        after.rest = [] := by
  unfold decode
  constructor
  · intro h
    split at h
    · cases h
    · rename_i c' after hread
      split at h
      · rename_i hend
        cases h
        exact ⟨after, hread, List.isEmpty_iff.mp hend⟩
      · cases h
  · rintro ⟨after, hread, hend⟩
    rw [hread]
    exact if_pos (List.isEmpty_iff.mpr hend)

end Content

end SignedPrefixes
