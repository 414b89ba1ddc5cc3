import SignedPrefixes.Merge.Table

/-!
# Histories of insertions

A table is filled by inserting one record after the other. Every insertion may be
reported to a ledger, which then knows how many records came from each provenance
and how many AS numbers are attributed to it.
-/

namespace SignedPrefixes

/-- A record together with the repository that it was found in. -/
structure Observation where
  /-- The record. -/
  record : Record
  /-- The repository, if it is known. -/
  repo : Option RepoId
  deriving DecidableEq, Repr

namespace Observation

/-- The AS number that an observation is about. -/
def asn (o : Observation) : Asn := o.record.asn

/-- The time from which on an observation is no longer good. -/
def expires (o : Observation) : Time := o.record.expires

/-- Where an observation was made. -/
def provenance (o : Observation) : Provenance := ⟨o.repo, o.record.tal⟩

end Observation

/-- The table after a history of insertions into `t`. -/
def MergeTable.insertAll (t : MergeTable) (os : List Observation) : MergeTable :=
  os.foldl (fun t o => (t.insert o.record o.repo).1) t

/-- What the insertions of a history into `t` report, one after the other. -/
def MergeTable.reportAll (t : MergeTable) : List Observation → List Report
  | [] => []
  | o :: os => (t.insert o.record o.repo).2 :: reportAll (t.insert o.record o.repo).1 os

/-- A table and the ledger that its insertions are reported to. -/
structure MergeState where
  /-- The merged lists. -/
  table : MergeTable
  /-- The counters by provenance. -/
  ledger : Ledger

namespace MergeState

/-- No lists and nothing recorded. -/
def empty : MergeState := ⟨.empty, .empty⟩

/-- The events that the next insertion reports. -/
def events (s : MergeState) (o : Observation) : List Event :=
  (s.table.insert o.record o.repo).2.events

/-- Inserts a record and has the ledger record what is reported. -/
def observe (s : MergeState) (o : Observation) : MergeState :=
  ⟨(s.table.insert o.record o.repo).1, s.ledger.recordAll (s.events o)⟩

/-- The state after a history of insertions. -/
def observeAll (s : MergeState) (os : List Observation) : MergeState := os.foldl observe s

end MergeState

end SignedPrefixes
