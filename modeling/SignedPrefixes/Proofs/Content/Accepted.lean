import SignedPrefixes.Content.Reader
import SignedPrefixes.Content.Writer
import SignedPrefixes.Proofs.Ber.Primitive
import SignedPrefixes.Proofs.Content.Ascending
import SignedPrefixes.Proofs.Prefix

/-!
# What accepted octets hold

Content that is read has ascending prefixes that are not too many, under all
policies. If the policy is strict, the octets taken on the way are those that are
written for the content. Both are invariants of the loops over prefixes and over
blocks, each of which is followed here from what one step takes.
-/

namespace SignedPrefixes

open Ber Ber.Reader StateExcept

variable {rules : Rules} {policy : Policy} {family : Family} {enclosing : ℕ} {inp out : Input}

/-- In DER an AS number is read from its own encoding. -/
theorem Asn.reader_eq_ok_der {asn : Asn} (h : Asn.reader .der inp = .ok (asn, out)) :
    inp.Takes asn.encode out := by
  obtain ⟨number, hnumber, rfl⟩ := map_eq_ok_iff.mp h
  exact unsigned32_eq_ok_der hnumber

/-- In DER a family is read from its own encoding. -/
theorem Family.reader_eq_ok_der (h : Family.reader .der enclosing inp = .ok (family, out)) :
    inp.Takes family.encode out := by
  unfold Family.reader at h
  obtain ⟨os, mid, hos, h⟩ := bind_eq_ok_iff.mp h
  cases hfamily : ofOctets? os with
  | none =>
    rw [hfamily] at h
    cases h
  | some family' =>
    rw [hfamily] at h
    cases h
    rw [ofOctets?_eq_some_iff.mp hfamily] at hos
    exact octetString_eq_ok_der hos

/-- A prefix that is not there takes nothing. -/
theorem Prefix.reader?_eq_ok_none {strict : Bool}
    (h : Prefix.reader? rules family strict enclosing inp = .ok (none, out)) : out = inp := by
  unfold Prefix.reader? at h
  obtain ⟨s?, mid, hs, h⟩ := bind_eq_ok_iff.mp h
  cases s? with
  | none =>
    cases h
    exact bitString?_eq_ok_none hs
  | some s =>
    dsimp only at h
    cases hp : ofBitString family strict s <;> rw [hp] at h <;> cases h

/-- A prefix that is read fits its family, and in DER it is read from its own encoding. -/
theorem Prefix.reader?_eq_ok_some {strict : Bool} {p : Prefix}
    (h : Prefix.reader? rules family strict enclosing inp = .ok (some p, out)) :
    p.length ≤ family.width ∧ (rules = .der → strict = true → inp.Takes p.encode out) := by
  unfold Prefix.reader? at h
  obtain ⟨s?, mid, hs, h⟩ := bind_eq_ok_iff.mp h
  cases s? with
  | none => cases h
  | some s =>
    dsimp only at h
    cases hp : ofBitString family strict s with
    | error fault =>
      rw [hp] at h
      cases h
    | ok p' =>
      rw [hp] at h
      cases h
      refine ⟨length_le_of_ofBitString hp, ?_⟩
      rintro rfl rfl
      have htake := (bitString?_eq_ok_some_der hs).1
      rwa [← toBitString_of_ofBitString hp] at htake

namespace Content

section Prefixes

variable {progress progress' : Progress} {before : ℕ}

/-- If there is no next prefix, nothing is taken. -/
theorem nextPrefix?_eq_ok_none
    (h : nextPrefix? rules policy family enclosing progress inp = .ok (none, out)) : out = inp := by
  unfold nextPrefix? at h
  obtain ⟨bits?, mid, hbits, h⟩ := bind_eq_ok_iff.mp h
  cases bits? with
  | none =>
    cases h
    exact Prefix.reader?_eq_ok_none hbits
  | some bits =>
    dsimp only at h
    cases hnew : IpPrefix.new? family bits with
    | none =>
      rw [hnew] at h
      cases h
    | some p =>
      simp only [hnew, branch_apply, bind_of_error (refuse_apply _ _), ite_error_eq_ok_iff] at h
      cases h.2.2

/-- A prefix that is read comes after the one before it and does not make the prefixes
too many. -/
theorem nextPrefix?_eq_ok_some
    (h : nextPrefix? rules policy family enclosing progress inp = .ok (some progress', out)) :
    ∃ p : IpPrefix, p.family = family ∧
      progress' = ⟨p :: progress.reversed, progress.count + 1⟩ ∧
      (∀ q ∈ progress.reversed.head?, q < p) ∧ progress.count + 1 < policy.maxPrefixes ∧
      (rules = .der → policy.strict = true → inp.Takes p.bits.encode out) := by
  unfold nextPrefix? at h
  obtain ⟨bits?, mid, hbits, h⟩ := bind_eq_ok_iff.mp h
  cases bits? with
  | none => cases h
  | some bits =>
    obtain ⟨hlength, htake⟩ := Prefix.reader?_eq_ok_some hbits
    dsimp only at h
    rw [IpPrefix.new?, dif_pos hlength] at h
    simp only [branch_apply, bind_of_error (refuse_apply _ _), ite_error_eq_ok_iff] at h
    obtain ⟨hsorted, hcount, h⟩ := h
    cases h
    refine ⟨⟨family, bits, hlength⟩, rfl, rfl, ?_, Nat.lt_of_not_le hcount, htake⟩
    intro q hq
    rw [Option.mem_def.mp hq] at hsorted
    exact lt_of_not_ge (by simpa using hsorted)

/-- What is true of the prefixes of a block while they are read. -/
structure Progress.Holds (progress : Progress) (policy : Policy) (family : Family) (before : ℕ) :
    Prop where
  /-- The prefixes are of the family of the block. -/
  family_eq : ∀ p ∈ progress.reversed, p.family = family
  /-- The last one that was read comes first and is the largest. -/
  pairwise : progress.reversed.Pairwise (· > ·)
  /-- The count is that of all prefixes, with those of the blocks before. -/
  count_eq : progress.count = before + progress.reversed.length
  /-- The count is below the bound as soon as there is a prefix. -/
  count_lt : progress.reversed = [] ∨ progress.count < policy.maxPrefixes

/-- A prefix after the last one and below the bound goes on with the block. -/
theorem Progress.Holds.cons (hprogress : progress.Holds policy family before) {p : IpPrefix}
    (hfamily : p.family = family) (hlast : ∀ q ∈ progress.reversed.head?, q < p)
    (hcount : progress.count + 1 < policy.maxPrefixes) :
    Progress.Holds ⟨p :: progress.reversed, progress.count + 1⟩ policy family before := by
  obtain ⟨hfamilies, hpairwise, hcountEq, -⟩ := hprogress
  constructor
  · intro q hq
    rcases List.mem_cons.mp hq with rfl | hq
    · exact hfamily
    · exact hfamilies q hq
  · refine List.pairwise_cons.mpr ⟨?_, hpairwise⟩
    intro q hq
    cases hreversed : progress.reversed with
    | nil =>
      rw [hreversed] at hq
      cases hq
    | cons r rs =>
      rw [hreversed] at hq hlast hpairwise
      have hr : r < p := hlast r rfl
      rcases List.mem_cons.mp hq with rfl | hq
      · exact hr
      · exact (List.rel_of_pairwise_cons hpairwise hq).trans hr
  · rw [hcountEq, List.length_cons, Nat.add_assoc]
  · exact Or.inr hcount

/-- The prefixes of a block that is read are of its family, ascend strictly and are not too
many together with those before. -/
theorem readPrefixes_eq_ok {ps : List IpPrefix}
    (h : readPrefixes rules policy family before inp = .ok (ps, out)) :
    (∀ p ∈ ps, p.family = family) ∧ ps.Pairwise (· < ·) ∧
      (ps = [] ∨ before + ps.length < policy.maxPrefixes) ∧
      (rules = .der → policy.strict = true →
        inp.Takes (Der.sequence (ps.flatMap fun p => p.bits.encode)) out) := by
  obtain ⟨start, inner, inner', hread, htakes⟩ := sequence_eq_ok h
  obtain ⟨progress, after, hloop, hread⟩ := bind_eq_ok_iff.mp hread
  cases hread
  -- The loop has taken what is written for the prefixes that it holds, the last one first.
  let Invariant (progress : Progress) (reached : Input) : Prop :=
    progress.Holds policy family before ∧
      (rules = .der → policy.strict = true →
        inner.Takes (progress.reversed.reverse.flatMap fun p => p.bits.encode) reached)
  have hinvariant : Invariant progress inner' := by
    refine iterate_induction ?_ ?_ ?_ hloop
    · rintro progress reached progress' reached' ⟨hholds, htaken⟩ hstep
      obtain ⟨p, hfamily, rfl, hlast, hcount, htake⟩ := nextPrefix?_eq_ok_some hstep
      refine ⟨hholds.cons hfamily hlast hcount, fun hder hstrict => ?_⟩
      rw [List.reverse_cons, List.flatMap_append, List.flatMap_singleton]
      exact (htaken hder hstrict).append (htake hder hstrict)
    · rintro progress reached reached' hholds hend
      obtain rfl := nextPrefix?_eq_ok_none hend
      exact hholds
    · exact ⟨⟨by simp, List.Pairwise.nil, rfl, Or.inl rfl⟩, fun _ _ => Input.Takes.refl inner⟩
  obtain ⟨⟨hfamily, hpairwise, hcountEq, hcount⟩, htaken⟩ := hinvariant
  refine ⟨by simpa using hfamily, List.pairwise_reverse.mpr hpairwise, ?_, ?_⟩
  · rw [List.length_reverse, ← hcountEq, List.reverse_eq_nil_iff]
    exact hcount
  · exact fun hder hstrict => htakes hder _ (htaken hder hstrict)

end Prefixes

/-- Blocks as they may follow each other: each has prefixes of its family in ascending
order, and the one of the second family comes last. -/
structure Arranged (blocks : List Block) : Prop where
  /-- No block is empty. -/
  ne_nil : ∀ b ∈ blocks, b.prefixes ≠ []
  /-- A block has the prefixes of its family. -/
  family_eq : ∀ b ∈ blocks, ∀ p ∈ b.prefixes, p.family = b.family
  /-- The prefixes of a block ascend. -/
  pairwise_prefixes : ∀ b ∈ blocks, b.prefixes.Pairwise (· < ·)
  /-- Of two blocks the first one is IPv4 and the second one is IPv6. -/
  pairwise_family : blocks.Pairwise fun b b' => b.family = .ipv4 ∧ b'.family = .ipv6

section Blocks

variable {blocks blocks' : List Block}

/-- The prefixes of arranged blocks ascend, block by block and from one to the next. -/
theorem Arranged.isAscending (hblocks : Arranged blocks) (asn : Asn) :
    IsAscending ⟨asn, blocks.flatMap (·.prefixes)⟩ := by
  refine List.pairwise_flatMap.mpr ⟨hblocks.pairwise_prefixes, ?_⟩
  refine hblocks.pairwise_family.imp_of_mem ?_
  rintro b b' hb hb' ⟨hfamily, hfamily'⟩ p hp q hq
  apply IpPrefix.lt_of_family
  · rw [hblocks.family_eq b hb p hp, hfamily]
  · rw [hblocks.family_eq b' hb' q hq, hfamily']

/-- Arranged blocks are what is written for the content that they make up. -/
theorem Arranged.flatMap_encodeBlock (hblocks : Arranged blocks) (asn : Asn) :
    (blocks.flatMap fun b => encodeBlock b.family b.prefixes) =
      encodeBlock .ipv4 (ipv4Prefixes ⟨asn, blocks.flatMap (·.prefixes)⟩) ++
        encodeBlock .ipv6 (ipv6Prefixes ⟨asn, blocks.flatMap (·.prefixes)⟩) := by
  obtain ⟨-, hfamily, -, hfamilies⟩ := hblocks
  match blocks, hfamily, hfamilies with
  | [], _, _ => rfl
  | [b], hfamily, _ =>
    have hb := hfamily b List.mem_cons_self
    rw [List.flatMap_singleton, List.flatMap_singleton]
    cases hf : b.family with
    | ipv4 =>
      rw [hf] at hb
      obtain ⟨hipv4, hipv6⟩ := families_of_append asn b.prefixes [] hb (by simp)
      rw [List.append_nil] at hipv4 hipv6
      rw [hipv4, hipv6]
      exact (List.append_nil _).symm
    | ipv6 =>
      rw [hf] at hb
      obtain ⟨hipv4, hipv6⟩ := families_of_append asn [] b.prefixes (by simp) hb
      rw [List.nil_append] at hipv4 hipv6
      rw [hipv4, hipv6]
      rfl
  | [b, b'], hfamily, hfamilies =>
    obtain ⟨hf, hf'⟩ := List.rel_of_pairwise_cons hfamilies List.mem_cons_self
    have hb := hfamily b List.mem_cons_self
    have hb' := hfamily b' (List.mem_cons_of_mem b List.mem_cons_self)
    rw [hf] at hb
    rw [hf'] at hb'
    obtain ⟨hipv4, hipv6⟩ := families_of_append asn b.prefixes b'.prefixes hb hb'
    rw [List.flatMap_cons, List.flatMap_singleton, List.flatMap_cons, List.flatMap_singleton,
      hipv4, hipv6, hf, hf']
  | b :: b' :: b'' :: rest, _, hfamilies =>
    -- The second block would be of the second family after the first one, and of the first
    -- family before the third one.
    have hfirst := (List.rel_of_pairwise_cons hfamilies List.mem_cons_self).2
    have hsecond := (List.rel_of_pairwise_cons hfamilies.of_cons List.mem_cons_self).1
    rw [hfirst] at hsecond
    cases hsecond

/-- Blocks that are collected backwards have as many prefixes. -/
theorem length_prefixes_reverse (blocks : List Block) :
    (blocks.reverse.flatMap (·.prefixes)).length = (blocks.flatMap (·.prefixes)).length := by
  rw [List.length_flatMap, List.map_reverse, List.sum_reverse, ← List.length_flatMap]

/-- The only block that may come after another one is IPv6 after IPv4. -/
theorem familyRefusal?_eq_none (h : familyRefusal? family blocks = none) :
    ∀ b ∈ blocks, b.family = .ipv4 ∧ family = .ipv6 := by
  intro b hb
  unfold familyRefusal? at h
  split_ifs at h with hsame horder
  have hne : b.family ≠ family := fun heq => hsame (List.any_eq_true.mpr ⟨b, hb, by simp [heq]⟩)
  have hother : family = .ipv4 → b.family ≠ .ipv6 := fun hipv4 hipv6 =>
    horder ⟨hipv4, List.any_eq_true.mpr ⟨b, hb, by simp [hipv6]⟩⟩
  cases hb4 : b.family <;> cases hf : family <;> simp_all

/-- If there is no next block, nothing is taken. -/
theorem nextBlock?_eq_ok_none
    (h : nextBlock? rules policy blocks inp = .ok (none, out)) : out = inp :=
  constructed?_eq_ok_none h

/-- A block that is read fits behind the ones before it. -/
theorem nextBlock?_eq_ok_some
    (h : nextBlock? rules policy blocks inp = .ok (some blocks', out)) :
    ∃ b : Block, blocks' = b :: blocks ∧ b.prefixes ≠ [] ∧
      (∀ p ∈ b.prefixes, p.family = b.family) ∧ b.prefixes.Pairwise (· < ·) ∧
      (∀ b' ∈ blocks, b'.family = .ipv4 ∧ b.family = .ipv6) ∧
      (blocks.flatMap (·.prefixes)).length + b.prefixes.length < policy.maxPrefixes ∧
      (rules = .der → policy.strict = true →
        inp.Takes (encodeBlock b.family b.prefixes) out) := by
  obtain ⟨start, inner, inner', hread, htakes⟩ := constructed?_eq_ok_some h
  simp only [branch_apply, bind_of_error (refuse_apply _ _), ite_error_eq_ok_iff] at hread
  obtain ⟨-, hread⟩ := hread
  -- What has been read is a family that may come next, and then prefixes of it.
  obtain ⟨family, mid, hfamily, hread⟩ := bind_eq_ok_iff.mp hread
  cases hrefusal : familyRefusal? family blocks with
  | some refusal =>
    rw [hrefusal] at hread
    cases hread
  | none =>
    rw [hrefusal] at hread
    dsimp only at hread
    obtain ⟨ps, after, hps, hread⟩ := bind_eq_ok_iff.mp hread
    simp only [branch_apply, bind_of_error (refuse_apply _ _), ite_error_eq_ok_iff] at hread
    obtain ⟨hne, hread⟩ := hread
    cases hread
    obtain ⟨hfamilies, hpairwise, hcount, htaken⟩ := readPrefixes_eq_ok hps
    have hne' : ps ≠ [] := fun hnil => hne (by simp [hnil])
    refine ⟨⟨family, ps⟩, rfl, hne', hfamilies, hpairwise, familyRefusal?_eq_none hrefusal,
      hcount.resolve_left hne', ?_⟩
    rintro rfl hstrict
    have htake := (Family.reader_eq_ok_der hfamily).append (htaken rfl hstrict)
    have hempty : ps.isEmpty = false := by simpa using hne'
    rw [encodeBlock, hempty]
    exact htakes rfl _ htake

/-- Arranged blocks stay so with an IPv6 block after an IPv4 block. -/
theorem Arranged.append_singleton (hblocks : Arranged blocks) {b : Block}
    (hne : b.prefixes ≠ []) (hfamily : ∀ p ∈ b.prefixes, p.family = b.family)
    (hpairwise : b.prefixes.Pairwise (· < ·))
    (hlast : ∀ b' ∈ blocks, b'.family = .ipv4 ∧ b.family = .ipv6) : Arranged (blocks ++ [b]) := by
  obtain ⟨hnes, hfamilies, hpairwises, horder⟩ := hblocks
  constructor
  · simpa [or_imp, forall_and] using ⟨hnes, hne⟩
  · intro b' hb'
    rcases List.mem_append.mp hb' with hb' | hb'
    · exact hfamilies b' hb'
    · obtain rfl := List.mem_singleton.mp hb'
      exact hfamily
  · intro b' hb'
    rcases List.mem_append.mp hb' with hb' | hb'
    · exact hpairwises b' hb'
    · obtain rfl := List.mem_singleton.mp hb'
      exact hpairwise
  · refine List.pairwise_append.mpr ⟨horder, List.pairwise_singleton _ _, ?_⟩
    intro b' hb' b'' hb''
    obtain rfl := List.mem_singleton.mp hb''
    exact hlast b' hb'

end Blocks

/-- Where it has to be DER there is no version, and nothing is taken for it. -/
theorem readVersion_eq_ok {strict : Bool}
    (h : readVersion rules strict enclosing inp = .ok ((), out)) : strict = true → out = inp := by
  rintro rfl
  unfold readVersion at h
  obtain ⟨version?, mid, hversion, h⟩ := bind_eq_ok_iff.mp h
  cases version? with
  | none =>
    cases h
    exact constructed?_eq_ok_none hversion
  | some version =>
    simp only [branch_apply, bind_of_error (refuse_apply _ _), ite_error_eq_ok_iff, if_true,
      refuse_apply] at h
    cases h.2

/-- Content that is read has ascending prefixes that are not too many. If the policy is strict,
the octets taken are those that are written for it. -/
theorem reader_eq_ok {c : Content} (h : reader rules policy inp = .ok (c, out)) :
    c.IsAscending ∧ (c.prefixes = [] ∨ c.prefixes.length < policy.maxPrefixes) ∧
      (rules = .der → policy.strict = true → inp.Takes c.encode out) := by
  obtain ⟨start, inner, inner', hread, htakes⟩ := sequence_eq_ok h
  obtain ⟨_, afterVersion, hversion, hread⟩ := bind_eq_ok_iff.mp hread
  obtain ⟨asn, afterAsn, hasn, hread⟩ := bind_eq_ok_iff.mp hread
  obtain ⟨blocks, after, hblocks, hread⟩ := bind_eq_ok_iff.mp hread
  cases hread
  obtain ⟨start', inner₂, inner₂', hloop, htakes'⟩ := sequence_eq_ok hblocks
  -- As for prefixes, with the last block first. The bound is one on the prefixes of all blocks.
  let Invariant (blocks : List Block) (reached : Input) : Prop :=
    Arranged blocks.reverse ∧
      (blocks = [] ∨ (blocks.flatMap (·.prefixes)).length < policy.maxPrefixes) ∧
      (rules = .der → policy.strict = true →
        inner₂.Takes (blocks.reverse.flatMap fun b => encodeBlock b.family b.prefixes) reached)
  have hinvariant : Invariant blocks inner₂' := by
    refine iterate_induction ?_ ?_ ?_ hloop
    · rintro blocks reached blocks' reached' ⟨harranged, -, htaken⟩ hstep
      obtain ⟨b, rfl, hne, hfamily, hpairwise, hlast, hcount, htake⟩ := nextBlock?_eq_ok_some hstep
      refine ⟨?_, Or.inr ?_, fun hder hstrict => ?_⟩
      · rw [List.reverse_cons]
        exact harranged.append_singleton hne hfamily hpairwise (by simpa using hlast)
      · rw [List.flatMap_cons, List.length_append]
        omega
      · rw [List.reverse_cons, List.flatMap_append, List.flatMap_singleton]
        exact (htaken hder hstrict).append (htake hder hstrict)
    · rintro blocks reached reached' hholds hend
      obtain rfl := nextBlock?_eq_ok_none hend
      exact hholds
    · exact ⟨⟨by simp, by simp, by simp, List.Pairwise.nil⟩, Or.inl rfl,
        fun _ _ => Input.Takes.refl inner₂⟩
  obtain ⟨harranged, hcount, htaken⟩ := hinvariant
  refine ⟨harranged.isAscending asn, ?_, ?_⟩
  · rcases hcount with rfl | hcount
    · exact Or.inl rfl
    · exact Or.inr ((length_prefixes_reverse blocks).trans_lt hcount)
  · rintro rfl hstrict
    have htake := htakes' rfl _ (htaken rfl hstrict)
    rw [readVersion_eq_ok hversion hstrict] at hasn
    rw [harranged.flatMap_encodeBlock asn] at htake
    exact htakes rfl _ ((Asn.reader_eq_ok_der hasn).append htake)

end Content

end SignedPrefixes
