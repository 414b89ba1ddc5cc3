import SignedPrefixes.Merge.Vsp

/-!
# Merging in place

No second list is needed to merge prefixes. A place among the stored prefixes moves from
front to back, and the incoming prefixes that are missing are inserted there. Looking at a
place where nothing is stored and inserting behind the end are mistakes, and a merge that
makes one comes to nothing.
-/

namespace SignedPrefixes.Vsp

/-- Moves on to the first place with a stored prefix that is not before `p`. -/
def seek? (p : IpPrefix) (stored : List IpPrefix) (pos : Nat) : Option Nat :=
  if h : pos < stored.length then do
    let q ← stored[pos]?
    if q < p then seek? p stored (pos + 1) else return pos
  else return pos
termination_by stored.length - pos
decreasing_by exact Nat.sub_succ_lt_self _ _ h

/-- Inserts a prefix in front of the one stored at a place, or at the end. -/
def insertAt? (p : IpPrefix) (stored : List IpPrefix) (pos : Nat) : Option (List IpPrefix) :=
  if pos ≤ stored.length then some (stored.insertIdx pos p) else none

/-- Merges the incoming prefixes one by one, from a place on that is not behind that of the
first one. -/
def mergeAt? (pos : Nat) (stored : List IpPrefix) : (incoming : List IpPrefix) →
    Option (List IpPrefix)
  | [] => some stored
  | p :: incoming => do
    let pos ← seek? p stored pos
    let stored ← if stored[pos]? = some p then some stored else insertAt? p stored pos
    mergeAt? (pos + 1) stored incoming

/-- Merges prefixes into the stored ones in place. -/
def mergeInPlace? (stored incoming : List IpPrefix) : Option (List IpPrefix) :=
  mergeAt? 0 stored incoming

end SignedPrefixes.Vsp
