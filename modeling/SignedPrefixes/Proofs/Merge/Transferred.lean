import SignedPrefixes.Proofs.Merge.Reordered

/-!
# Records that are handed over before they are merged

Records may be processed in one place and merged in another. They are written into one
stream, where each record ends where the next one begins, and are taken from it again
one by one. What is lost on the way is nothing that merging looks at, so the insertions
report the same and lead to the same lists and counters.
-/

namespace SignedPrefixes

namespace Record

variable {r : Record} {rs : List Record}

/-- Every record takes octets. -/
theorem encode_ne_nil (r : Record) : r.encode ≠ [] := List.cons_ne_nil _ _

/-- The records that a stream holds, each with the octets of the ones after it. -/
def inStream : List Record → List (Record × Octets)
  | [] => []
  | r :: rs => (r.handedOver, rs.flatMap encode) :: inStream rs

/-- A stream of records hands over one record after the other. -/
theorem map_fst_inStream (rs : List Record) : (inStream rs).map Prod.fst = rs.map handedOver := by
  induction rs with
  | nil => rfl
  | cons r rs ih => rw [inStream, List.map_cons, List.map_cons, ih]

/-- Nothing comes after the last record. -/
theorem snd_eq_nil_of_mem_getLast?_inStream {entry : Record × Octets}
    (h : entry ∈ (inStream rs).getLast?) : entry.2 = [] := by
  induction rs with
  | nil => cases h
  | cons r rs ih =>
    cases rs with
    | nil =>
      obtain rfl := Option.some.inj h
      rfl
    | cons r' rs => exact ih (by simpa [inStream] using h)

/-- Each record is taken exactly up to the next one. -/
theorem decodeStreamWith_flatMap_encode {fuel : ℕ} (hrs : ∀ r ∈ rs, r.Portable) (hne : rs ≠ [])
    (hfuel : rs.length ≤ fuel) :
    decodeStreamWith fuel (rs.flatMap encode) = ⟨inStream rs, none⟩ := by
  induction rs generalizing fuel with
  | nil => exact absurd rfl hne
  | cons r rs ih =>
    have htake : decode ((r :: rs).flatMap encode) = .ok (r.handedOver, rs.flatMap encode) :=
      (hrs r List.mem_cons_self).carries.take_append _
    cases fuel with
    | zero => cases hfuel
    | succ fuel =>
      rw [decodeStreamWith, htake]
      cases rs with
      | nil => rfl
      | cons r' rs =>
        have hmore : ((r' :: rs).flatMap encode).isEmpty = false := rfl
        have hrest := ih (fun r hr => hrs r (List.mem_cons_of_mem _ hr)) (List.cons_ne_nil _ _)
          (Nat.le_of_succ_le_succ hfuel)
        simp only [hmore, hrest]
        rfl

/-- There are at least as many octets as records. -/
theorem length_le_length_flatMap_encode (rs : List Record) :
    rs.length ≤ (rs.flatMap encode).length := by
  induction rs with
  | nil => rfl
  | cons r rs ih =>
    have hpos : 0 < r.encode.length := List.length_pos_of_ne_nil r.encode_ne_nil
    simp only [List.flatMap_cons, List.length_append, List.length_cons]
    omega

/-- Records that are written one after the other are all taken again. -/
theorem decodeAll_flatMap_encode (hrs : ∀ r ∈ rs, r.Portable) :
    decodeAll (rs.flatMap encode) = ⟨inStream rs, none⟩ := by
  cases rs with
  | nil => rfl
  | cons r rs =>
    have hsome : ((r :: rs).flatMap encode).isEmpty = false := rfl
    rw [decodeAll, hsome]
    exact decodeStreamWith_flatMap_encode hrs (List.cons_ne_nil _ _)
      ((length_le_length_flatMap_encode _).trans (Nat.le_succ _))

/-- A record that can come about and fits the numbers of its form. -/
structure Transferable (r : Record) : Prop where
  /-- The record can come about. -/
  produced : r.Produced
  /-- It expires at a whole second. -/
  nanos_expires_eq : r.expires.nanos = 0
  /-- The number of prefixes fits 32 bits. -/
  length_prefixes_lt : r.prefixes.length < 2 ^ 32
  /-- The length of each identifier fits 32 bits. -/
  utf8ByteSize_aia_lt : r.aia.utf8ByteSize < 2 ^ 32
  utf8ByteSize_aki_lt : r.aki.utf8ByteSize < 2 ^ 32
  utf8ByteSize_ski_lt : r.ski.utf8ByteSize < 2 ^ 32

/-- A record that may be transferred has a form. -/
theorem Transferable.portable (hr : r.Transferable) : r.Portable :=
  hr.produced.portable hr.nanos_expires_eq hr.length_prefixes_lt hr.utf8ByteSize_aia_lt
    hr.utf8ByteSize_aki_lt hr.utf8ByteSize_ski_lt

end Record

namespace Observation

/-- What is handed over of an observation. The repository is known on both sides. -/
def handedOver (o : Observation) : Observation := ⟨o.record.handedOver, o.repo⟩

/-- The octets by which the records of observations are handed over. -/
def encodeAll (os : List Observation) : Octets := os.flatMap fun o => o.record.encode

/-- The observations that are received with the repositories of the ones handed over. -/
def received (os : List Observation) : List Observation :=
  List.zipWith Observation.mk ((Record.decodeAll (encodeAll os)).records.map Prod.fst)
    (os.map Observation.repo)

variable {os : List Observation}

/-- All records of a stream are taken and no error ends it. -/
theorem decodeAll_encodeAll (hos : ∀ o ∈ os, o.record.Transferable) :
    Record.decodeAll (encodeAll os) = ⟨Record.inStream (os.map Observation.record), none⟩ := by
  have hrs : ∀ r ∈ os.map Observation.record, r.Portable := by
    intro r hr
    obtain ⟨o, ho, rfl⟩ := List.mem_map.mp hr
    exact (hos o ho).portable
  rw [← Record.decodeAll_flatMap_encode hrs, List.flatMap_map]
  rfl

/-- What is received are the records that are handed over, in their order. -/
theorem received_eq (hos : ∀ o ∈ os, o.record.Transferable) : received os = os.map handedOver := by
  rw [received, decodeAll_encodeAll hos, Record.map_fst_inStream, List.map_map,
    List.zipWith_map, List.zipWith_self]
  rfl

end Observation

namespace MergeTable

/-- Merging does not look at what is not handed over. -/
theorem insert_handedOver (t : MergeTable) (r : Record) (repo : Option RepoId) :
    t.insert r.handedOver repo = t.insert r repo := rfl

/-- The reports are the same for the records that are handed over. -/
theorem reportAll_map_handedOver (t : MergeTable) (os : List Observation) :
    t.reportAll (os.map Observation.handedOver) = t.reportAll os := by
  induction os generalizing t with
  | nil => rfl
  | cons o os ih =>
    rw [List.map_cons, reportAll, reportAll, Observation.handedOver, insert_handedOver, ih]

end MergeTable

namespace MergeState

/-- Merging a record that is handed over is merging the record. -/
theorem observe_handedOver (s : MergeState) (o : Observation) :
    s.observe o.handedOver = s.observe o := by
  rw [observe, events, Observation.handedOver, MergeTable.insert_handedOver]
  rfl

/-- Merging the records that are handed over is merging the records. -/
theorem observeAll_map_handedOver (s : MergeState) (os : List Observation) :
    s.observeAll (os.map Observation.handedOver) = s.observeAll os := by
  simp only [observeAll, List.foldl_map, observe_handedOver]

/-- Handing over records before they are merged changes nothing about the merging. From the octets
of all records, one after the other, the same number of records is taken in the same order until no
octets are left. Inserting them reports the same events and lines and leads to the same lists and
counters as inserting the records themselves. -/
theorem observeAll_received {os : List Observation} (hos : ∀ o ∈ os, o.record.Transferable) :
    let stream := Record.decodeAll (Observation.encodeAll os)
    (stream.error = none ∧ ∀ last ∈ stream.records.getLast?, last.2 = []) ∧
      stream.records.length = os.length ∧
      stream.records.map Prod.fst = os.map (·.record.handedOver) ∧
      MergeTable.empty.reportAll (Observation.received os) = MergeTable.empty.reportAll os ∧
      empty.observeAll (Observation.received os) = empty.observeAll os := by
  intro stream
  have hstream : stream = ⟨Record.inStream (os.map Observation.record), none⟩ :=
    Observation.decodeAll_encodeAll hos
  have hrecords : stream.records.map Prod.fst = os.map (·.record.handedOver) := by
    rw [hstream, Record.map_fst_inStream, List.map_map]
    rfl
  have hlength : stream.records.length = os.length := by
    simpa using congrArg List.length hrecords
  refine ⟨⟨by rw [hstream], ?_⟩, hlength, hrecords, ?_, ?_⟩
  · rw [hstream]
    exact fun last hlast => Record.snd_eq_nil_of_mem_getLast?_inStream hlast
  · rw [Observation.received_eq hos, MergeTable.reportAll_map_handedOver]
  · rw [Observation.received_eq hos, observeAll_map_handedOver]

/-- The attribution moves also if the two processed records are handed over first, although both
lose their times on the way. -/
theorem observeAll_received_reordered :
    (∀ o ∈ reorderedSample, o.record.Transferable) ∧
      (Record.decodeAll (Observation.encodeAll reorderedSample)).records.length = 2 ∧
      (MergeTable.empty.reportAll (Observation.received reorderedSample)).map
        MergeTable.Report.events =
          [[⟨⟨none, ⟨3⟩⟩, .gained⟩, ⟨⟨none, ⟨3⟩⟩, .merged⟩],
            [⟨⟨none, ⟨3⟩⟩, .lost⟩, ⟨⟨some ⟨7⟩, ⟨3⟩⟩, .gained⟩, ⟨⟨some ⟨7⟩, ⟨3⟩⟩, .merged⟩]] ∧
      Observation.received reorderedSample ≠ reorderedSample := by
  have hprocessed : Record.sampleProcessed.Transferable :=
    ⟨Record.produced_sampleProcessed, by decide, by decide, by decide, by decide, by decide⟩
  have hos : ∀ o ∈ reorderedSample, o.record.Transferable := by
    intro o ho
    rcases List.mem_cons.mp ho with rfl | ho
    · exact hprocessed
    · obtain rfl := List.mem_singleton.mp ho
      exact
        { hprocessed with
          produced := .withExpires hprocessed.produced _
          nanos_expires_eq := by decide }
  obtain ⟨-, hlength, -, hreports, -⟩ := observeAll_received hos
  refine ⟨hos, hlength, ?_, ?_⟩
  · rw [hreports]
    decide +kernel
  · rw [Observation.received_eq hos]
    decide

end MergeState

end SignedPrefixes
