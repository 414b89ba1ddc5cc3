import SignedPrefixes.Log
import SignedPrefixes.Merge.Ledger
import SignedPrefixes.Merge.Vsp

/-!
# The merged lists of all AS numbers

Records are inserted one after the other. The first record of an AS number becomes
its list, and later ones are merged into it. A record that expires later than the
list moves the list to its own provenance. Every insertion reports events, from
which a ledger of provenances can be kept, and lines for the log.
-/

namespace SignedPrefixes

/-- The merged lists by AS number. -/
structure MergeTable where
  /-- The list of each AS number. -/
  lists : Std.TreeMap Asn Vsp

namespace MergeTable

/-- A table without lists. -/
def empty : MergeTable := ⟨∅⟩

/-- The number of AS numbers. -/
def size (t : MergeTable) : Nat := t.lists.size

/-- Whether there are no lists. -/
def isEmpty (t : MergeTable) : Bool := t.lists.isEmpty

/-- The list of an AS number. -/
def get? (t : MergeTable) (asn : Asn) : Option Vsp := t.lists.get? asn

/-- The lists in the order of their AS numbers. -/
def toList (t : MergeTable) : List Vsp := t.lists.values

/-- What an insertion reports. -/
structure Report where
  /-- The events, the first one first. -/
  events : List Event
  /-- The log lines, the first one first. -/
  log : List LogLine
  deriving DecidableEq, Repr

/-- The list of an AS number after a record is added to it. The provenance and the
expiry follow a record that expires later. -/
def mergedVsp (v : Vsp) (r : Record) (repo : Option RepoId) : Vsp :=
  let v' :=
    if v.expires < r.expires then { v with expires := r.expires, provenance := ⟨repo, r.tal⟩ }
    else v
  { v' with prefixes := Vsp.mergePrefixes v.prefixes r.prefixes }

/-- What is reported when a record is added to what is there for its AS number. -/
def reportFor (before : Option Vsp) (r : Record) (repo : Option RepoId) : Report :=
  let source : Provenance := ⟨repo, r.tal⟩
  match before with
  | none =>
    ⟨[⟨source, .gained⟩, ⟨source, .merged⟩],
      [⟨.debug, "VSP for " ++ toString r.asn ++ ": new from " ++ toString r.tal⟩]⟩
  | some v =>
    if v.expires < r.expires then
      ⟨[⟨v.provenance, .lost⟩, ⟨source, .gained⟩, ⟨source, .merged⟩],
        [⟨.trace, "VSP for " ++ toString v.asn ++ ": attribution moves from " ++
          toString v.provenance.tal ++ " to " ++ toString r.tal⟩]⟩
    else ⟨[⟨source, .merged⟩], []⟩

/-- Inserts a record from a repository, whether it is valid or not. -/
def insert (t : MergeTable) (r : Record) (repo : Option RepoId) : MergeTable × Report :=
  let before := t.get? r.asn
  let after := match before with
    | none => Vsp.ofRecord r repo
    | some v => mergedVsp v r repo
  (⟨t.lists.insert r.asn after⟩, reportFor before r repo)

end MergeTable

end SignedPrefixes
