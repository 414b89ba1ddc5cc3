import SignedPrefixes.Provenance
import Std.Data.TreeMap

/-!
# Counting what happens to records

While records are merged, events say what happens to them. A ledger counts the
events for each provenance: how many records came from there, and how many AS
numbers are attributed to it at the time.
-/

namespace SignedPrefixes

/-- What happened to a record. -/
inductive Occurrence where
  /-- An AS number is attributed to the provenance now. -/
  | gained
  /-- An AS number is no longer attributed to the provenance. -/
  | lost
  /-- A record from the provenance was merged. -/
  | merged
  deriving DecidableEq, Repr

/-- Something that happened to a record from a provenance. -/
structure Event where
  /-- Where the record comes from. -/
  provenance : Provenance
  /-- What happened. -/
  occurrence : Occurrence
  deriving DecidableEq, Repr

/-- The counters of one provenance. -/
structure Counters where
  /-- The number of records merged. -/
  total : Nat
  /-- The number of AS numbers attributed. -/
  unique : Nat
  deriving DecidableEq, Repr

namespace Counters

/-- Counters at the start. -/
def zero : Counters := ⟨0, 0⟩

instance : Add Counters := ⟨fun a b => ⟨a.total + b.total, a.unique + b.unique⟩⟩

/-- The counters after something has happened. A count of zero stays at zero. -/
def after (c : Counters) : Occurrence → Counters
  | .gained => { c with unique := c.unique + 1 }
  | .lost => { c with unique := c.unique - 1 }
  | .merged => { c with total := c.total + 1 }

end Counters

/-- The counters of every provenance that something was recorded for. -/
structure Ledger where
  /-- The counters by provenance. -/
  counters : Std.TreeMap Provenance Counters

namespace Ledger

/-- A ledger with nothing recorded. -/
def empty : Ledger := ⟨∅⟩

/-- The counters of a provenance, which are zero if nothing was recorded for it. -/
def get (l : Ledger) (p : Provenance) : Counters := l.counters.getD p .zero

/-- Records an event. -/
def record (l : Ledger) (e : Event) : Ledger :=
  ⟨l.counters.insert e.provenance ((l.get e.provenance).after e.occurrence)⟩

/-- Records events in their order. -/
def recordAll (l : Ledger) (events : List Event) : Ledger := events.foldl record l

/-- All counters in the order of their provenance. -/
def toList (l : Ledger) : List (Provenance × Counters) := l.counters.toList

/-- The sum of all counters. -/
def sum (l : Ledger) : Counters := l.toList.foldl (fun c entry => c + entry.2) .zero

end Ledger

end SignedPrefixes
