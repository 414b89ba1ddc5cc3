import SignedPrefixes.Content.Reader
import SignedPrefixes.PrefixWords

/-!
# Reading content with all calls guarded

Content is read here with prefixes in machine words, and with all of them in one list, of which
the prefixes of the current block are the rest from some place on. What a routine relies on is
checked where it is called, and is told apart from what can be wrong with the content. Routines
that rely on nothing are taken over as they are.
-/

namespace SignedPrefixes

open Ber Ber.Reader

/-- The same failure with another refusal. -/
def Ber.Failure.map {ε ε' : Type} (f : ε → ε') (failure : Failure ε) : Failure ε' where
  cause :=
    match failure.cause with
    | .encoding fault => .encoding fault
    | .content refusal => .content (f refusal)
  position := failure.position

namespace Content.Guarded

/-- A reader that is stopped by its refusals. -/
def unguarded {α : Type} (r : Reader Refusal α) : Reader (Stop Refusal) α := fun inp =>
  (r inp).mapError (Failure.map Stop.error)

/-- Reads the words of a prefix of a family, if a bit string comes next. -/
def prefixWords? (rules : Rules) (family : Family) (strict : Bool) (enclosing : Nat) :
    Reader (Stop Refusal) (Option PrefixWords) := do
  match ← bitString? rules with
  | none => return none
  | some s =>
    match PrefixWords.ofBitString family strict s with
    | .ok p => return some p
    | .error (.error fault) => refuse (.error (.bits fault)) enclosing
    | .error (.misuse m) => refuse (.misuse m) enclosing

/-- Reads one more prefix of a block whose prefixes start at a place in the list. -/
def nextPrefix? (rules : Rules) (policy : Policy) (family : Family) (enclosing start : Nat)
    (prefixes : List IpPrefix) : Reader (Stop Refusal) (Option (List IpPrefix)) := do
  match ← prefixWords? rules family policy.strict enclosing with
  | none => return none
  | some words =>
    match words.toIpPrefix? family with
    | none => refuse (.misuse .unfitPrefix) enclosing
    | some p =>
      if prefixes.length < start then refuse (.misuse .slicesPastEnd) enclosing
      if (prefixes.drop start).getLast?.any (p ≤ ·) then refuse (.error .unsorted) enclosing
      if policy.maxPrefixes ≤ prefixes.length + 1 then refuse (.error .manyPrefixes) enclosing
      return some (prefixes ++ [p])

/-- Reads the prefixes of a block and puts them after those of the blocks before. -/
def readPrefixes (rules : Rules) (policy : Policy) (family : Family) (prefixes : List IpPrefix) :
    Reader (Stop Refusal) (List IpPrefix) :=
  sequence rules fun enclosing =>
    iterate (nextPrefix? rules policy family enclosing prefixes.length) prefixes

/-- What has been read of the blocks. -/
structure Seen where
  /-- The number of blocks. -/
  blocks : Nat
  /-- Whether one of them is an IPv4 block. -/
  ipv4 : Bool
  /-- Whether one of them is an IPv6 block. -/
  ipv6 : Bool
  /-- The prefixes of all blocks. -/
  prefixes : List IpPrefix
  deriving DecidableEq, Repr

/-- Why a block of a family cannot come next. -/
def Seen.familyRefusal? (seen : Seen) : Family → Option Refusal
  | .ipv4 =>
    if seen.ipv4 then some (.repeatedFamily .ipv4)
    else if seen.ipv6 then some .familyOrder
    else none
  | .ipv6 => if seen.ipv6 then some (.repeatedFamily .ipv6) else none

/-- What has been read after one more block of a family. -/
def Seen.add (seen : Seen) (family : Family) (prefixes : List IpPrefix) : Seen where
  blocks := seen.blocks + 1
  ipv4 := seen.ipv4 || family = .ipv4
  ipv6 := seen.ipv6 || family = .ipv6
  prefixes := prefixes

/-- Reads one more block. -/
def nextBlock? (rules : Rules) (policy : Policy) (seen : Seen) :
    Reader (Stop Refusal) (Option Seen) :=
  sequence? rules fun start => do
    if 2 < seen.blocks + 1 then refuse (.error .manyBlocks) start
    let family ← unguarded (Family.reader rules start)
    if let some refusal := seen.familyRefusal? family then refuse (.error refusal) start
    let prefixes ← readPrefixes rules policy family seen.prefixes
    if prefixes.length = seen.prefixes.length then refuse (.error .emptyBlock) start
    return seen.add family prefixes

/-- Reads content. -/
def reader (rules : Rules) (policy : Policy) : Reader (Stop Refusal) Content :=
  sequence rules fun start => do
    unguarded (readVersion rules policy.strict start)
    let asn ← unguarded (Asn.reader rules)
    let seen ← sequence rules fun _ => iterate (nextBlock? rules policy) ⟨0, false, false, []⟩
    return ⟨asn, seen.prefixes⟩

/-- Reads octets that hold content and nothing else. -/
def decode (policy : Policy) (os : Octets) : Except (Failure (Stop Refusal)) Content :=
  match reader (rulesOf policy) policy (Input.ofOctets os) with
  | .error failure => .error failure
  | .ok (c, after) =>
    if after.rest.isEmpty then .ok c
    else .error ⟨.content (.error .trailingOctets), after.position⟩

end Content.Guarded

end SignedPrefixes
