/-!
# Where objects come from

Trust anchors and repositories have plain numbers, handed out by whoever loads
them. Together they say where an object was found. The repository may be unknown.
-/

namespace SignedPrefixes

/-- The number of a trust anchor. -/
structure TalId where
  /-- The plain number. -/
  number : UInt32
  deriving DecidableEq, Repr

instance : ToString TalId := ⟨fun id => "tal#" ++ toString id.number.toNat⟩

/-- The number of a repository. -/
structure RepoId where
  /-- The plain number. -/
  number : UInt32
  deriving DecidableEq, Repr

instance : ToString RepoId := ⟨fun id => "repo#" ++ toString id.number.toNat⟩

/-- The repository and the trust anchor that an object was found under. -/
structure Provenance where
  /-- The repository, if it is known. -/
  repo : Option RepoId
  /-- The trust anchor. -/
  tal : TalId
  deriving DecidableEq, Repr

/-- By repository, with an unknown one first, then by trust anchor. -/
instance : Ord Provenance where
  compare := compareLex (compareOn fun p => p.repo.map RepoId.number)
    (compareOn fun p => p.tal.number)

instance : Std.TransOrd Provenance :=
  inferInstanceAs <| Std.TransCmp <| compareLex
    (compareOn fun p : Provenance => p.repo.map RepoId.number)
    (compareOn fun p : Provenance => p.tal.number)

instance : Std.LawfulEqOrd Provenance where
  eq_of_compare {p q} h := by
    obtain ⟨hrepo, htal⟩ := Ordering.then_eq_eq.mp h
    have hrepo : p.repo.map RepoId.number = q.repo.map RepoId.number :=
      Std.LawfulEqOrd.eq_of_compare hrepo
    have htal : p.tal.number = q.tal.number := Std.LawfulEqOrd.eq_of_compare htal
    obtain ⟨repo, ⟨tal⟩⟩ := p
    obtain ⟨repo', ⟨tal'⟩⟩ := q
    cases htal
    rcases repo with _ | ⟨⟨n⟩⟩ <;> rcases repo' with _ | ⟨⟨n'⟩⟩ <;> simp_all

end SignedPrefixes
