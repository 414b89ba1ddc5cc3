import Mathlib
import SignedPrefixes.Merge.History
import SignedPrefixes.Proofs.Merge.Table
import SignedPrefixes.Proofs.SortedMap

/-!
# The ledger agrees with the table

The ledger only sees events, the table only sees records. The two stay in step: for
every provenance the ledger has the number of lists that the table attributes to it
and the number of records that came from it.
-/

namespace SignedPrefixes

namespace Ledger

/-- An event counts for its own provenance and no other one. -/
theorem get_record (l : Ledger) (e : Event) (p : Provenance) :
    (l.record e).get p = if e.provenance = p then (l.get p).after e.occurrence else l.get p := by
  rw [get, record, Std.TreeMap.getD_insert]
  by_cases h : e.provenance = p
  · subst h
    simp
  · have hne : compare e.provenance p ≠ .eq := fun heq => h (Std.LawfulEqOrd.eq_of_compare heq)
    rw [if_neg hne, if_neg h]
    rfl

/-- The empty ledger has counted nothing. -/
@[simp] theorem get_empty (p : Provenance) : empty.get p = .zero := by
  simp [empty, get]

/-- Events are counted one after the other. -/
theorem recordAll_cons (l : Ledger) (e : Event) (es : List Event) :
    l.recordAll (e :: es) = (l.record e).recordAll es := rfl

/-- A sum over all counters, taken apart into one number for each provenance. -/
theorem sum_eq_of_add {f : Counters → ℕ} (hzero : f .zero = 0)
    (hadd : ∀ a b, f (a + b) = f a + f b) (l : Ledger) :
    f l.sum = (l.toList.map fun entry => f entry.2).sum := by
  have hfold : ∀ (entries : List (Provenance × Counters)) (c : Counters),
      f (entries.foldl (fun c entry => c + entry.2) c) =
        f c + (entries.map fun entry => f entry.2).sum := by
    intro entries
    induction entries with
    | nil => simp
    | cons entry entries ih =>
      intro c
      rw [List.foldl_cons, ih, hadd, List.map_cons, List.sum_cons, Nat.add_assoc]
  rw [sum, hfold, hzero, Nat.zero_add]

/-- Recording an event changes a sum by as much as it changes the counters of its
provenance. -/
theorem sum_record_add {f : Counters → ℕ} (hzero : f .zero = 0)
    (hadd : ∀ a b, f (a + b) = f a + f b) (l : Ledger) (e : Event) :
    f (l.record e).sum + f (l.get e.provenance) =
      f l.sum + f ((l.get e.provenance).after e.occurrence) := by
  rw [sum_eq_of_add hzero hadd, sum_eq_of_add hzero hadd]
  cases h : l.counters[e.provenance]? with
  | none =>
    have hget : l.get e.provenance = .zero := by
      rw [get, Std.TreeMap.getD_eq_getD_getElem?, h, Option.getD_none]
    have hperm := toList_insert_of_none h ((l.get e.provenance).after e.occurrence)
    rw [toList, record, (hperm.map _).sum_eq, hget, hzero, List.map_cons, List.sum_cons, toList,
      Nat.add_zero]
    exact Nat.add_comm _ _
  | some c =>
    have hget : l.get e.provenance = c := by
      rw [get, Std.TreeMap.getD_eq_getD_getElem?, h, Option.getD_some]
    obtain ⟨entries, hold, hnew⟩ :=
      exists_toList_insert_of_some h ((l.get e.provenance).after e.occurrence)
    rw [toList, record, (hnew.map _).sum_eq, toList, (hold.map _).sum_eq, hget]
    simp only [List.map_cons, List.sum_cons]
    omega

/-- Whether every loss among the events finds a counter that is not zero. -/
def Covers (l : Ledger) : List Event → Prop
  | [] => True
  | e :: es => (e.occurrence = .lost → 1 ≤ (l.get e.provenance).unique) ∧ (l.record e).Covers es

/-- A list that is lost was counted before. -/
theorem Covers.one_le {l : Ledger} {front back : List Event} {p : Provenance}
    (h : l.Covers (front ++ ⟨p, .lost⟩ :: back)) : 1 ≤ ((l.recordAll front).get p).unique := by
  induction front generalizing l with
  | nil => exact h.1 rfl
  | cons e front ih => exact ih h.2

/-- What covers a history covers its beginning. -/
theorem Covers.of_append {l : Ledger} {front back : List Event} (h : l.Covers (front ++ back)) :
    l.Covers front := by
  induction front generalizing l with
  | nil => trivial
  | cons e front ih => exact ⟨h.1, ih h.2⟩

/-- A covered counter of lists is what was gained less what was lost. -/
theorem unique_recordAll {l : Ledger} {es : List Event} (h : l.Covers es) (p : Provenance) :
    ((l.recordAll es).get p).unique + es.count ⟨p, .lost⟩ =
      (l.get p).unique + es.count ⟨p, .gained⟩ := by
  induction es generalizing l with
  | nil => rfl
  | cons e es ih =>
    obtain ⟨hlost, hrest⟩ := h
    have hes := ih hrest
    obtain ⟨p', occurrence⟩ := e
    rw [get_record] at hes
    rw [recordAll_cons, List.count_cons, List.count_cons]
    by_cases hp : p' = p
    · subst hp
      cases occurrence with
      | gained => simp [Counters.after] at hes ⊢; omega
      | lost =>
        have hpos := hlost rfl
        simp [Counters.after] at hes hpos ⊢
        omega
      | merged => simp [Counters.after] at hes ⊢; omega
    · simp [hp] at hes ⊢
      omega

/-- The total of a provenance counts its merged records. -/
theorem total_recordAll (l : Ledger) (es : List Event) (p : Provenance) :
    ((l.recordAll es).get p).total = (l.get p).total + es.count ⟨p, .merged⟩ := by
  induction es generalizing l with
  | nil => rfl
  | cons e es ih =>
    obtain ⟨p', occurrence⟩ := e
    rw [recordAll_cons, ih, get_record, List.count_cons]
    by_cases hp : p' = p
    · subst hp
      cases occurrence <;> simp [Counters.after]; omega
    · simp [hp]

/-- The unique counts of all provenances together go up and down with the lists. -/
theorem sum_unique_recordAll {l : Ledger} {es : List Event} (h : l.Covers es) :
    (l.recordAll es).sum.unique + es.countP (·.occurrence = .lost) =
      l.sum.unique + es.countP (·.occurrence = .gained) := by
  induction es generalizing l with
  | nil => rfl
  | cons e es ih =>
    obtain ⟨hlost, hrest⟩ := h
    have hes := ih hrest
    have hsum := l.sum_record_add (f := Counters.unique) rfl (fun _ _ => rfl) e
    rw [recordAll_cons, List.countP_cons, List.countP_cons]
    obtain ⟨p, occurrence⟩ := e
    cases occurrence with
    | gained => simp [Counters.after] at hsum ⊢; omega
    | lost =>
      have hpos := hlost rfl
      simp [Counters.after] at hsum hpos ⊢
      omega
    | merged => simp [Counters.after] at hsum ⊢; omega

/-- The totals of all provenances together count the merged records. -/
theorem sum_total_recordAll (l : Ledger) (es : List Event) :
    (l.recordAll es).sum.total = l.sum.total + es.countP (·.occurrence = .merged) := by
  induction es generalizing l with
  | nil => rfl
  | cons e es ih =>
    have hsum := l.sum_record_add (f := Counters.total) rfl (fun _ _ => rfl) e
    rw [recordAll_cons, ih, List.countP_cons]
    obtain ⟨p, occurrence⟩ := e
    cases occurrence <;> simp [Counters.after] at hsum ⊢ <;> omega

end Ledger

namespace MergeTable

/-- The number of lists that are attributed to a provenance. -/
def attributed (t : MergeTable) (p : Provenance) : ℕ := t.toList.countP (·.provenance = p)

/-- The first record for an AS number adds a list. -/
theorem toList_insert_of_none {t : MergeTable} {o : Observation} (h : t.get? o.asn = none) :
    (t.insert o.record o.repo).1.toList.Perm (Vsp.ofRecord o.record o.repo :: t.toList) := by
  rw [toList, toList, values_eq_map_toList, values_eq_map_toList, lists_insert, h]
  exact (SignedPrefixes.toList_insert_of_none h _).map Prod.snd

/-- A further record for an AS number exchanges its list and keeps the others. -/
theorem exists_toList_insert_of_some {t : MergeTable} {o : Observation} {v : Vsp}
    (h : t.get? o.asn = some v) :
    ∃ others, t.toList.Perm (v :: others) ∧
      (t.insert o.record o.repo).1.toList.Perm (mergedVsp v o.record o.repo :: others) := by
  obtain ⟨entries, hold, hnew⟩ :=
    SignedPrefixes.exists_toList_insert_of_some h (mergedVsp v o.record o.repo)
  refine ⟨entries.map Prod.snd, ?_, ?_⟩
  · rw [toList, values_eq_map_toList]
    exact hold.map Prod.snd
  · rw [toList, values_eq_map_toList, lists_insert, h]
    exact hnew.map Prod.snd

end MergeTable

namespace MergeState

/-- The ledger of a state knows what the table knows after the history `os`. -/
structure Agrees (s : MergeState) (os : List Observation) : Prop where
  /-- The unique count of a provenance is the number of lists that are attributed to it. -/
  unique_eq : ∀ p, (s.ledger.get p).unique = s.table.attributed p
  /-- The total of a provenance is the number of its records. -/
  total_eq : ∀ p, (s.ledger.get p).total = os.countP (·.provenance = p)
  /-- All unique counts together are the number of lists. -/
  sum_unique_eq : s.ledger.sum.unique = s.table.size
  /-- All totals together are the number of records. -/
  sum_total_eq : s.ledger.sum.total = os.length

/-- What one insertion does: the first record of an AS number adds a list, a record
that expires later moves the list to its provenance, and any other record leaves
the attribution as it is. -/
theorem observe_cases (s : MergeState) (o : Observation) :
    (s.events o = [⟨o.provenance, .gained⟩, ⟨o.provenance, .merged⟩] ∧
      ∃ v, v.provenance = o.provenance ∧ (s.observe o).table.toList.Perm (v :: s.table.toList)) ∨
    ∃ v v' others, s.table.toList.Perm (v :: others) ∧
      (s.observe o).table.toList.Perm (v' :: others) ∧
      ((s.events o = [⟨v.provenance, .lost⟩, ⟨o.provenance, .gained⟩, ⟨o.provenance, .merged⟩] ∧
          v'.provenance = o.provenance) ∨
        (s.events o = [⟨o.provenance, .merged⟩] ∧ v'.provenance = v.provenance)) := by
  cases h : s.table.get? o.asn with
  | none =>
    left
    refine ⟨?_, Vsp.ofRecord o.record o.repo, rfl, MergeTable.toList_insert_of_none h⟩
    have hbefore : s.table.get? o.record.asn = none := h
    simp [events, MergeTable.insert, hbefore, MergeTable.reportFor, Observation.provenance]
  | some v =>
    right
    have hbefore : s.table.get? o.record.asn = some v := h
    obtain ⟨others, hold, hnew⟩ := MergeTable.exists_toList_insert_of_some h
    refine ⟨v, MergeTable.mergedVsp v o.record o.repo, others, hold, hnew, ?_⟩
    by_cases hlater : v.expires < o.record.expires
    · left
      simp [events, MergeTable.insert, hbefore, MergeTable.reportFor, hlater,
        MergeTable.mergedVsp, Observation.provenance]
    · right
      simp [events, MergeTable.insert, hbefore, MergeTable.reportFor, hlater,
        MergeTable.mergedVsp, Observation.provenance]

/-- An empty ledger agrees with an empty table. -/
theorem agrees_empty : empty.Agrees [] where
  unique_eq p := by
    simp [empty, MergeTable.attributed, MergeTable.toList, MergeTable.empty,
      values_eq_map_toList, Counters.zero]
  total_eq p := by simp [empty, Counters.zero]
  sum_unique_eq := by
    simp [empty, Ledger.sum, Ledger.toList, Ledger.empty, MergeTable.size, MergeTable.empty,
      Counters.zero]
  sum_total_eq := by simp [empty, Ledger.sum, Ledger.toList, Ledger.empty, Counters.zero]

/-- The lists that a table attributes to a provenance follow the events. -/
theorem attributed_observe (s : MergeState) (o : Observation) (p : Provenance) :
    (s.observe o).table.attributed p + (s.events o).count ⟨p, .lost⟩ =
      s.table.attributed p + (s.events o).count ⟨p, .gained⟩ := by
  obtain ⟨hevents, v, hv, htable⟩ | ⟨v, v', others, hold, hnew, hcases⟩ := s.observe_cases o
  · rw [MergeTable.attributed, htable.countP_eq, List.countP_cons, MergeTable.attributed, hevents,
      hv]
    simp [List.count_cons]
  · rw [MergeTable.attributed, hnew.countP_eq, List.countP_cons, MergeTable.attributed,
      hold.countP_eq, List.countP_cons]
    obtain ⟨hevents, hv'⟩ | ⟨hevents, hv'⟩ := hcases
    · rw [hevents, hv']
      simp [List.count_cons]
      omega
    · rw [hevents, hv']
      simp

/-- A table grows by the lists that are gained and not lost by a record. -/
theorem size_observe (s : MergeState) (o : Observation) :
    (s.observe o).table.size + (s.events o).countP (·.occurrence = .lost) =
      s.table.size + (s.events o).countP (·.occurrence = .gained) := by
  rw [MergeTable.size_eq_length_toList, MergeTable.size_eq_length_toList]
  obtain ⟨hevents, v, -, htable⟩ | ⟨v, v', others, hold, hnew, hcases⟩ := s.observe_cases o
  · rw [hevents, htable.length_eq]
    rfl
  · rw [hnew.length_eq, hold.length_eq]
    obtain ⟨hevents, -⟩ | ⟨hevents, -⟩ := hcases <;> rw [hevents] <;> rfl

/-- Every insertion reports one merged record, and gains at most one list. -/
theorem count_events (s : MergeState) (o : Observation) :
    (∀ p, (s.events o).count ⟨p, .merged⟩ = if o.provenance = p then 1 else 0) ∧
      (s.events o).countP (·.occurrence = .merged) = 1 ∧
      (s.events o).countP (·.occurrence = .gained) ≤ 1 := by
  obtain ⟨hevents, -⟩ | ⟨v, v', others, -, -, ⟨hevents, -⟩ | ⟨hevents, -⟩⟩ := s.observe_cases o <;>
    rw [hevents] <;> simp [List.count_cons]

variable {s : MergeState} {os : List Observation}

/-- A loss is only reported where a list is attributed. -/
theorem Agrees.covers (h : s.Agrees os) (o : Observation) : s.ledger.Covers (s.events o) := by
  obtain ⟨hevents, -⟩ | ⟨v, v', others, hold, -, ⟨hevents, -⟩ | ⟨hevents, -⟩⟩ := s.observe_cases o
  · simp [hevents, Ledger.Covers]
  · have hpos : 1 ≤ (s.ledger.get v.provenance).unique := by
      rw [h.unique_eq, MergeTable.attributed, hold.countP_eq, List.countP_cons]
      simp
    simp [hevents, Ledger.Covers, hpos]
  · simp [hevents, Ledger.Covers]

/-- An insertion keeps ledger and table in step. -/
theorem Agrees.observe (h : s.Agrees os) (o : Observation) : (s.observe o).Agrees (os ++ [o]) := by
  have hledger : (s.observe o).ledger = s.ledger.recordAll (s.events o) := rfl
  obtain ⟨hmerged, hmergedAll, -⟩ := s.count_events o
  refine ⟨fun p => ?_, fun p => ?_, ?_, ?_⟩
  · have hunique := Ledger.unique_recordAll (h.covers o) p
    have hattributed := s.attributed_observe o p
    rw [h.unique_eq] at hunique
    rw [hledger]
    omega
  · rw [hledger, Ledger.total_recordAll, h.total_eq, hmerged, List.countP_append,
      List.countP_singleton]
    simp
  · have hunique := Ledger.sum_unique_recordAll (h.covers o)
    have hsize := s.size_observe o
    rw [h.sum_unique_eq] at hunique
    rw [hledger]
    omega
  · rw [hledger, Ledger.sum_total_recordAll, h.sum_total_eq, hmergedAll, List.length_append,
      List.length_singleton]

/-- The last observation is made after the others. -/
theorem observeAll_append_singleton (s : MergeState) (os : List Observation) (o : Observation) :
    s.observeAll (os ++ [o]) = (s.observeAll os).observe o := by
  rw [observeAll, List.foldl_append]
  rfl

/-- Ledger and table agree after any observations. -/
theorem agrees_observeAll (os : List Observation) : (empty.observeAll os).Agrees os := by
  induction os using List.reverseRecOn with
  | nil => exact agrees_empty
  | append_singleton os o ih =>
    rw [observeAll_append_singleton]
    exact ih.observe o

/-- There are no more lists than observations. -/
theorem size_observeAll_le (os : List Observation) :
    (empty.observeAll os).table.size ≤ os.length := by
  induction os using List.reverseRecOn with
  | nil => simp [observeAll, empty, MergeTable.size, MergeTable.empty]
  | append_singleton os o ih =>
    have hsize := (empty.observeAll os).size_observe o
    obtain ⟨-, -, hgained⟩ := (empty.observeAll os).count_events o
    rw [observeAll_append_singleton, List.length_append, List.length_singleton]
    omega

/-- No counter gets ahead of the number of insertions, not even between two events of
one insertion. -/
theorem get_recordAll_le (os : List Observation) (o : Observation) {front : List Event}
    (hfront : front <+: (empty.observeAll os).events o) (p : Provenance) :
    (((empty.observeAll os).ledger.recordAll front).get p).total ≤ os.length + 1 ∧
      (((empty.observeAll os).ledger.recordAll front).get p).unique ≤ os.length + 1 := by
  have hagrees := agrees_observeAll os
  obtain ⟨-, hmerged, hgained⟩ := (empty.observeAll os).count_events o
  obtain ⟨back, hback⟩ := hfront
  have hcount : ∀ x, front.count ⟨p, x⟩ ≤
      ((empty.observeAll os).events o).countP (·.occurrence = x) := by
    intro x
    rw [← hback, List.countP_append]
    refine le_add_right (List.countP_mono_left fun e _ he => ?_)
    rw [beq_iff_eq] at he
    simp [he]
  have hcovers := hagrees.covers o
  rw [← hback] at hcovers
  have htotal := Ledger.total_recordAll (empty.observeAll os).ledger front p
  have hunique := Ledger.unique_recordAll hcovers.of_append p
  have htotalBefore : os.countP (·.provenance = p) ≤ os.length := List.countP_le_length
  have huniqueBefore : (empty.observeAll os).table.attributed p ≤ os.length :=
    (List.countP_le_length.trans_eq (MergeTable.size_eq_length_toList _).symm).trans
      (size_observeAll_le os)
  -- The events of one observation count one at most for each kind of count.
  have hfrontMerged := hcount .merged
  have hfrontGained := hcount .gained
  rw [hagrees.total_eq] at htotal
  rw [hagrees.unique_eq] at hunique
  omega

/-- Throughout a history the ledger agrees with the table, a loss is only recorded where
something is attributed, and no counter leaves the range of 64 bits. -/
theorem agrees_throughout (os : List Observation) (hos : os.length < 2 ^ 64) :
    (∀ before, before <+: os → (empty.observeAll before).Agrees before) ∧
    ∀ before o, before ++ [o] <+: os →
      (∀ front p back, (empty.observeAll before).events o = front ++ ⟨p, .lost⟩ :: back →
        1 ≤ (((empty.observeAll before).ledger.recordAll front).get p).unique) ∧
      ∀ front, front <+: (empty.observeAll before).events o → ∀ p,
        (((empty.observeAll before).ledger.recordAll front).get p).total < 2 ^ 64 ∧
          (((empty.observeAll before).ledger.recordAll front).get p).unique < 2 ^ 64 := by
  refine ⟨fun before _ => agrees_observeAll before, fun before o hprefix => ⟨?_, ?_⟩⟩
  · intro front p back hevents
    have hcovers := (agrees_observeAll before).covers o
    rw [hevents] at hcovers
    exact hcovers.one_le
  · intro front hfront p
    have hlength := hprefix.length_le
    rw [List.length_append, List.length_singleton] at hlength
    obtain ⟨htotal, hunique⟩ := get_recordAll_le before o hfront p
    omega

/-- An observation of AS64496 without prefixes. -/
def sampleObservation (tal : UInt32) (expires : Time) : Observation where
  record :=
    { valid := true
      asn := ⟨64496⟩
      tal := ⟨tal⟩
      prefixes := []
      expires
      signingTime := none
      notBefore := none
      notAfter := none
      aia := "a"
      aki := "b"
      ski := "c"
      sia := none }
  repo := none

/-- The epoch and the second after it. -/
def sampleTimes : Time × Time :=
  (⟨0, 0, by decide, by decide, by decide, by decide⟩,
    ⟨1, 0, by decide, by decide, by decide, by decide⟩)

/-- Two records of one AS number, of which the second one expires later. -/
theorem agrees_throughout_moved :
    [sampleObservation 1 sampleTimes.1, sampleObservation 2 sampleTimes.2].length < 2 ^ 64 ∧
      (empty.observeAll
        [sampleObservation 1 sampleTimes.1, sampleObservation 2 sampleTimes.2]).Agrees
        [sampleObservation 1 sampleTimes.1, sampleObservation 2 sampleTimes.2] ∧
      1 ≤ ((empty.observe (sampleObservation 1 sampleTimes.1)).ledger.get ⟨none, ⟨1⟩⟩).unique := by
  have h := agrees_throughout
    [sampleObservation 1 sampleTimes.1, sampleObservation 2 sampleTimes.2] (by decide)
  refine ⟨by decide, h.1 _ List.prefix_rfl, ?_⟩
  exact (h.2 [sampleObservation 1 sampleTimes.1] (sampleObservation 2 sampleTimes.2)
    List.prefix_rfl).1 [] ⟨none, ⟨1⟩⟩ [⟨⟨none, ⟨2⟩⟩, .gained⟩, ⟨⟨none, ⟨2⟩⟩, .merged⟩]
    (by decide +kernel)

end MergeState

end SignedPrefixes
