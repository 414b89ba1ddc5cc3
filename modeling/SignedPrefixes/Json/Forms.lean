import SignedPrefixes.Json
import SignedPrefixes.Merge.Vsp

/-!
# JSON forms

The JSON forms of numbers, families, prefixes, times, policies and merged lists.
Numbers are plain integers, prefixes and times are texts, and the others are
objects with named members. Instead of an object the readers also take an array
of the members in their order. Members with other names are passed over, and so
are those that another member of the same name follows. The readers are those of a
value that has been parsed, not of its text.
-/

namespace SignedPrefixes

namespace Json

/-- Why a JSON value is not the form of anything. -/
inductive Fault where
  /-- The value has the wrong kind, lacks a member or is out of range. -/
  | unexpected
  /-- A text should be a prefix and is not. -/
  | notPrefix (e : IpPrefix.TextError)
  deriving DecidableEq, Repr

/-- What was read, or the fault of having an unexpected value. -/
def expect {α : Type} : Option α → Except Fault α
  | some a => .ok a
  | none => .error .unexpected

/-- The items of an array. -/
def items? : Json → Option (List Json)
  | array items => some items
  | _ => none

/-- The members with the given names. An array has the first of them, and not more
than there are names. -/
def members (names : List String) (v : Json) : Except Fault (List (Option Json)) :=
  match v with
  | object _ => .ok (names.map fun name => v.member? name)
  | array items =>
    if items.length ≤ names.length then
      .ok (items.map some ++ List.replicate (names.length - items.length) none)
    else .error .unexpected
  | _ => .error .unexpected

/-- The largest number of 32 bits. -/
def maxNat32 : Nat := UInt32.size - 1

/-- The largest number of 64 bits. -/
def maxNat64 : Nat := UInt64.size - 1

/-- An integer of 32 bits. -/
def uint32? (v : Json) : Option UInt32 := (v.nat? maxNat32).map UInt32.ofNat

/-- The integer with the given value. -/
def ofUInt32 (n : UInt32) : Json := integer n.toNat

end Json

open Json

/-- An AS number is a plain number. -/
def Asn.toJson (asn : Asn) : Json := ofUInt32 asn.number

/-- Reads an AS number. -/
def Asn.ofJson (v : Json) : Except Fault Asn := expect (v.uint32?.map Asn.mk)

/-- A trust anchor is a plain number. -/
def TalId.toJson (id : TalId) : Json := ofUInt32 id.number

/-- Reads a trust anchor. -/
def TalId.ofJson (v : Json) : Except Fault TalId := expect (v.uint32?.map TalId.mk)

/-- A repository is a plain number. -/
def RepoId.toJson (id : RepoId) : Json := ofUInt32 id.number

/-- Reads a repository. -/
def RepoId.ofJson (v : Json) : Except Fault RepoId := expect (v.uint32?.map RepoId.mk)

/-- The name of a family. -/
def Family.jsonName : Family → String
  | ipv4 => "Ipv4"
  | ipv6 => "Ipv6"

/-- A family is its name. -/
def Family.toJson (f : Family) : Json := .string f.jsonName

/-- The family with a name. -/
def Family.ofJsonName? (s : String) : Option Family :=
  if s = jsonName .ipv4 then some .ipv4 else if s = jsonName .ipv6 then some .ipv6 else none

/-- Reads a family, which may also be the only member of an object and then is null. -/
def Family.ofJson : Json → Except Fault Family
  | .string s => expect (ofJsonName? s)
  | .object [(s, .null)] => expect (ofJsonName? s)
  | _ => .error .unexpected

/-- A prefix is its text. -/
def IpPrefix.toJson (p : IpPrefix) : Json := .string (toString p)

/-- Reads a prefix. -/
def IpPrefix.ofJson (v : Json) : Except Fault IpPrefix := do
  (IpPrefix.read (← expect v.string?)).mapError .notPrefix

/-- A time is its exact text. -/
def Time.toJson (t : Time) : Json := .string t.exactText

/-- Reads a time. -/
def Time.ofJson (v : Json) : Except Fault Time := expect (v.string?.bind Time.read?)

namespace Policy

/-- The members of a policy. -/
def jsonNames : List String := ["strict", "max_prefixes"]

/-- A policy is an object. -/
def toJson (policy : Policy) : Json :=
  .object [("strict", .bool policy.strict), ("max_prefixes", .integer policy.maxPrefixes)]

/-- Reads a policy. Missing members have their usual values. -/
def ofJson (v : Json) : Except Fault Policy := do
  match ← members jsonNames v with
  | [strict, maxPrefixes] =>
    let strict ← match strict with
      | some v => expect v.bool?
      | none => .ok default.strict
    let maxPrefixes ← match maxPrefixes with
      | some v => expect (v.nat? maxNat64)
      | none => .ok default.maxPrefixes
    return ⟨strict, maxPrefixes⟩
  | _ => .error .unexpected

end Policy

namespace Vsp

/-- The members of a merged list. -/
def jsonNames : List String := ["as_id", "talid", "repoid", "expires", "prefixes"]

/-- A merged list is an object. -/
def toJson (v : Vsp) : Json :=
  .object [
    ("as_id", v.asn.toJson),
    ("talid", v.provenance.tal.toJson),
    ("repoid", (v.provenance.repo.map RepoId.toJson).getD .null),
    ("expires", v.expires.toJson),
    ("prefixes", .array (v.prefixes.map IpPrefix.toJson))]

/-- Reads a repository that may be null. -/
def repoOfJson : Json → Except Fault (Option RepoId)
  | .null => .ok none
  | v => some <$> RepoId.ofJson v

/-- Reads a merged list. Only the repository may be missing from an object. The
prefixes are taken as they come. -/
def ofJson (v : Json) : Except Fault Vsp := do
  match ← members jsonNames v with
  | [some asn, some tal, repo, some expires, some prefixes] =>
    let asn ← Asn.ofJson asn
    let tal ← TalId.ofJson tal
    let repo ← repoOfJson (repo.getD .null)
    let expires ← Time.ofJson expires
    let prefixes ← (← expect prefixes.items?).mapM IpPrefix.ofJson
    return ⟨asn, ⟨repo, tal⟩, expires, prefixes⟩
  | _ => .error .unexpected

end Vsp

end SignedPrefixes
