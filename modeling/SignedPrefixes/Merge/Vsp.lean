import SignedPrefixes.Record
import SignedPrefixes.Time.Text

/-!
# Merged prefix lists

All records of one AS number are merged into one list of validated signed
prefixes. Its prefixes are those of any of the records, in strictly ascending
order. Its expiry is the latest one, and its provenance is that of the record with
this expiry.
-/

namespace SignedPrefixes

/-- The merged prefixes of the records of one AS number. -/
structure Vsp where
  /-- The AS number. -/
  asn : Asn
  /-- Where the record that expires last comes from. -/
  provenance : Provenance
  /-- The latest expiry of the records. -/
  expires : Time
  /-- The prefixes of all records. -/
  prefixes : List IpPrefix
  deriving DecidableEq, Repr

namespace Vsp

/-- The list that comes from a single record. -/
def ofRecord (r : Record) (repo : Option RepoId) : Vsp :=
  ⟨r.asn, ⟨repo, r.tal⟩, r.expires, r.prefixes⟩

/-- Passes over the stored prefixes before `p`. The ones passed are put on top of
`passed`. -/
def passBefore (p : IpPrefix) (passed : List IpPrefix) :
    (stored : List IpPrefix) → List IpPrefix × List IpPrefix
  | [] => (passed, [])
  | q :: stored => if q < p then passBefore p (q :: passed) stored else (passed, q :: stored)

/-- Walks along both lists and puts each incoming prefix where it belongs, unless it
is there already. The prefixes that have been dealt with are in `passed`, the last
one first. -/
def mergeFrom (passed stored : List IpPrefix) : (incoming : List IpPrefix) → List IpPrefix
  | [] => passed.reverse ++ stored
  | p :: incoming =>
    let (passed, stored) := passBefore p passed stored
    match stored with
    | [] => mergeFrom (p :: passed) [] incoming
    | q :: rest => mergeFrom (p :: passed) (if q = p then rest else q :: rest) incoming

/-- Merges strictly ascending prefixes into strictly ascending prefixes. -/
def mergePrefixes (stored incoming : List IpPrefix) : List IpPrefix := mergeFrom [] stored incoming

/-- The characters of a list: the AS number, where the list comes from, when it
expires, and the prefixes. -/
def text (v : Vsp) : String :=
  toString v.asn ++ " (" ++ toString v.provenance.tal ++ ", expires " ++ toString v.expires ++
    "):" ++ (if v.prefixes.isEmpty then "" else " ") ++
    ", ".intercalate (v.prefixes.map toString)

instance : ToString Vsp := ⟨text⟩

end Vsp

end SignedPrefixes
