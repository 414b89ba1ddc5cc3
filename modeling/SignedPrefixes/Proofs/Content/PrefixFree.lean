import SignedPrefixes.Content.Reader
import SignedPrefixes.Proofs.Ber.LocalValue

/-!
# Content ends where it ends

Content is read as a value of its own, so octets behind it are neither looked at nor taken.
They can look like further values, like the end of contents or like a header that is cut
short. Octets that hold content therefore cannot be the beginning of longer octets that hold
content, and they cannot be cut.
-/

namespace SignedPrefixes

open Ber Ber.Reader StateExcept

variable {rules : Rules} {policy : Policy} {os : Octets} {c : Content}

/-- An AS number comes to the same whatever follows it. -/
theorem Asn.local_reader (rules : Rules) : Local (Asn.reader rules) :=
  (local_unsigned32 rules _).map Asn.mk

/-- An AS number is missed where no octets are left. -/
theorem Asn.needsOctets_reader (rules : Rules) : NeedsOctets (Asn.reader rules) :=
  (needsOctets_unsigned32 rules _).map Asn.mk

/-- A family comes to the same whatever follows it. -/
theorem Family.local_reader (rules : Rules) (enclosing : ℕ) :
    Local (Family.reader rules enclosing) := by
  refine (local_octetString rules enclosing).bind fun os => ?_
  cases Family.ofOctets? os with
  | none => exact (fails_refuse _ _).local
  | some family => exact .pure family

/-- A prefix comes to the same whatever follows it, and takes octets if it is found. -/
theorem Prefix.localOptional_reader? (rules : Rules) (family : Family) (strict : Bool)
    (enclosing : ℕ) : LocalOptional (Prefix.reader? rules family strict enclosing) := by
  refine (localOptional_bitString? rules).bind_optional rfl fun s => ?_
  dsimp only
  cases Prefix.ofBitString family strict s with
  | error fault => exact (fails_refuse _ _).local
  | ok p => exact .pure _

namespace Content

/-- The next prefix comes to the same whatever follows it, and takes octets if it is found. -/
theorem localOptional_nextPrefix? (rules : Rules) (policy : Policy) (family : Family)
    (enclosing : ℕ) (progress : Progress) :
    LocalOptional (nextPrefix? rules policy family enclosing progress) := by
  refine (Prefix.localOptional_reader? rules family policy.strict enclosing).bind_optional rfl
    fun bits => ?_
  dsimp only
  cases IpPrefix.new? family bits with
  | none => exact (fails_refuse _ _).local
  | some p =>
    exact .check ((fails_refuse _ _).bind _) (.check ((fails_refuse _ _).bind _) (.pure _))

/-- The loop over the prefixes of a block ends only where no prefix follows. -/
theorem shrinks_nextPrefix? (rules : Rules) (policy : Policy) (family : Family) (enclosing : ℕ) :
    Shrinks (nextPrefix? rules policy family enclosing) :=
  LocalOptional.shrinks (localOptional_nextPrefix? rules policy family enclosing)

/-- The prefixes of a block come to the same whatever follows them. -/
theorem local_readPrefixes (rules : Rules) (policy : Policy) (family : Family) (before : ℕ) :
    Local (readPrefixes rules policy family before) :=
  .sequence fun start =>
    (LocalInside.iterate (localOptional_nextPrefix? rules policy family start) _).bind_pure _

/-- The next block comes to the same whatever follows it, and takes octets if it is found. -/
theorem localOptional_nextBlock? (rules : Rules) (policy : Policy) (blocks : List Block) :
    LocalOptional (nextBlock? rules policy blocks) := by
  refine LocalOptional.constructed? Tag.sequence fun start => Local.inside ?_
  refine .check ((fails_refuse _ _).bind _) ?_
  refine (Family.local_reader rules start).bind fun family => ?_
  have hprefixes : Local (do
      let prefixes ← readPrefixes rules policy family (blocks.flatMap (·.prefixes)).length
      if prefixes.isEmpty then refuse .emptyBlock start
      return ⟨family, prefixes⟩ :: blocks : Reader Refusal (List Block)) := by
    refine (local_readPrefixes rules policy family _).bind fun prefixes => ?_
    exact .check ((fails_refuse _ _).bind _) (.pure _)
  cases familyRefusal? family blocks with
  | none => exact hprefixes
  | some refusal => exact ((fails_refuse _ _).bind _).local

/-- The loop over the blocks ends only where no block follows. -/
theorem shrinks_nextBlock? (rules : Rules) (policy : Policy) :
    Shrinks (nextBlock? rules policy) :=
  LocalOptional.shrinks (localOptional_nextBlock? rules policy)

/-- The version need not be there, so without octets it is not missed. -/
theorem localInside_readVersion (rules : Rules) (strict : Bool) (enclosing : ℕ) :
    LocalInside (readVersion rules strict enclosing) := by
  have hversion : LocalOptional (constructed? rules Tag.context0
      fun _ => unsigned32 rules Refusal.unsupportedVersion) :=
    .constructed? Tag.context0 fun _ => (local_unsigned32 rules _).inside
  refine hversion.bind_inside rfl fun version => ?_
  exact .check ((fails_refuse _ _).bind _) (.check (fails_refuse _ _) (.pure _))

/-- Content comes to the same whatever follows it. -/
theorem local_reader (rules : Rules) (policy : Policy) : Local (reader rules policy) := by
  refine .sequence fun start => Local.inside ?_
  refine (localInside_readVersion rules policy.strict start).bind (fun _ => ?_) fun _ =>
    (Asn.needsOctets_reader rules).bind _
  refine (Asn.local_reader rules).bind fun asn => Local.bind ?_ fun blocks => .pure _
  exact .sequence fun _ => .iterate (localOptional_nextBlock? rules policy) _

/-- Octets that hold content are all read, and others behind them are left alone. -/
theorem reader_append_of_decode (h : decode policy os = .ok c) (more : Octets) :
    ∃ out, reader (rulesOf policy) policy (Input.ofOctets (os ++ more)) = .ok (c, out) ∧
      out.rest = more ∧ out.position = os.length := by
  obtain ⟨out, hread, hrest⟩ := decode_eq_ok_iff.mp h
  obtain ⟨hadvances, hmore⟩ := local_reader _ policy hread
  have hposition : out.position + out.rest.length = 0 + os.length := hadvances.position_add_length
  rw [hrest, List.length_nil, Nat.add_zero, Nat.zero_add] at hposition
  refine ⟨out.append more, hmore more, ?_, hposition⟩
  change out.rest ++ more = more
  rw [hrest, List.nil_append]

/-- Octets behind content are trailing garbage, which starts where the content has ended. -/
theorem decode_append (h : decode policy os = .ok c) {more : Octets} (hne : more ≠ []) :
    decode policy (os ++ more) = .error ⟨.content .trailingOctets, os.length⟩ := by
  obtain ⟨out, hread, hrest, hposition⟩ := reader_append_of_decode h more
  unfold decode
  rw [hread]
  dsimp only
  rw [if_neg (by rwa [hrest, List.isEmpty_iff]), hposition]

/-- Whatever follows octets that hold content is trailing garbage, and is left alone by a
reader of content. Octets that are only the beginning of such octets hold no content. -/
theorem decode_prefixFree (h : decode policy os = .ok c) :
    (∀ more, more ≠ [] →
      (∃ failure, decode policy (os ++ more) = .error failure ∧
        failure.cause = .content .trailingOctets ∧ failure.position = os.length ∧
        failure.message =
          "trailing garbage in eContent (at position " ++ toString os.length ++ ")") ∧
      (reader (rulesOf policy) policy).runOn (os ++ more) = .ok (c, more)) ∧
    ∀ front, front <+: os → front ≠ os → ∃ failure, decode policy front = .error failure := by
  refine ⟨fun more hne => ⟨⟨_, decode_append h hne, rfl, rfl, ?_⟩, ?_⟩, ?_⟩
  · rw [ContentFailure.message, Failure.message, String.append_assoc]
    rfl
  · obtain ⟨out, hread, hrest, -⟩ := reader_append_of_decode h more
    unfold Reader.runOn
    rw [hread]
    dsimp only
    rw [hrest]
  · rintro front ⟨more, rfl⟩ hcut
    have hne : more ≠ [] := by
      rintro rfl
      exact hcut (List.append_nil front).symm
    cases hfront : decode policy front with
    | error failure => exact ⟨failure, rfl⟩
    | ok c' =>
      rw [decode_append hfront hne] at h
      cases h

/-- AS64496 with the prefix 192.0.2.0/24, where all sequences have indefinite lengths. -/
def indefiniteOctets : Octets :=
  [48, 128, 2, 3, 0, 251, 240, 48, 128, 48, 128, 4, 2, 0, 1, 48, 128, 3, 4, 0, 192, 0, 2,
    0, 0, 0, 0, 0, 0, 0, 0]

/-- One more end of contents is trailing garbage, and the last one cannot be left out. -/
theorem decode_prefixFree_indefinite :
    ∃ c failure cut, decode ⟨false, 4⟩ indefiniteOctets = .ok c ∧
      decode ⟨false, 4⟩ (indefiniteOctets ++ [0, 0]) = .error failure ∧
      failure.message = "trailing garbage in eContent (at position 31)" ∧
      (reader .ber ⟨false, 4⟩).runOn (indefiniteOctets ++ [0, 0]) = .ok (c, [0, 0]) ∧
      decode ⟨false, 4⟩ (indefiniteOctets.take 29) = .error cut := by
  have hdecode : decode ⟨false, 4⟩ indefiniteOctets =
      .ok ⟨⟨64496⟩, [⟨.ipv4,
        ⟨⟨0xc0000200000000000000000000000000⟩, 24, by decide, by decide⟩, by decide⟩]⟩ := by
    decide +kernel
  obtain ⟨hmore, hfront⟩ := decode_prefixFree hdecode
  obtain ⟨⟨failure, herror, -, -, hmessage⟩, hread⟩ := hmore [0, 0] (by decide)
  obtain ⟨cut, hcut⟩ := hfront (indefiniteOctets.take 29) (List.take_prefix _ _) (by decide)
  exact ⟨_, failure, cut, hdecode, herror, hmessage, hread, hcut⟩

end Content

end SignedPrefixes
