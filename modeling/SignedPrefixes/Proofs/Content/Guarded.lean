import SignedPrefixes.Content.Guarded
import SignedPrefixes.Proofs.Ber.Parallel
import SignedPrefixes.Proofs.PrefixWords

/-!
# Reading content makes no mistake

Guarded or not, content is read the same way. A bit string is read into words without misuse,
the prefix it stands for fits its family, and the prefixes of a block never start behind the
end of the list. What the list holds is what the prefixes of the blocks come to together.
-/

namespace SignedPrefixes

open Ber Ber.Reader StateExcept

/-- The refusals there can be. A bit string that is not too long is no longer than an address,
and a prefix that is read from it fits the family. -/
def Refusal.Occurs (e : Refusal) : Prop := e ≠ .misfit ∧ e ≠ .bits .lengthOverflow

instance (e : Refusal) : Decidable e.Occurs := inferInstanceAs (Decidable (_ ∧ _))

/-- No refusal that there can be speaks of a prefix that does not fit and nothing else. -/
theorem Refusal.Occurs.message_ne {e : Refusal} (h : e.Occurs) :
    e.message ≠ "invalid prefix encoding" := by
  cases e with
  | misfit => exact absurd rfl h.1
  | repeatedFamily family => cases family <;> decide
  | bits fault => cases fault <;> decide
  | _ => decide

/-- A bit string is refused before it could be longer than any address. -/
theorem Prefix.occurs_of_ofBitString {family : Family} {strict : Bool} {s : BitString}
    {fault : BitsFault} (h : ofBitString family strict s = .error fault) :
    (Refusal.bits fault).Occurs := by
  refine ⟨nofun, ?_⟩
  rintro ⟨⟩
  unfold ofBitString at h
  split_ifs at h with hlong
  · cases h
  · have hle : s.length ≤ 128 :=
      (BitString.length_le_width (Nat.le_of_not_lt hlong)).trans family.width_le
    simp only [new?, dif_pos hle] at h
    split_ifs at h
    cases h

/-- A family is only refused because it is unknown. -/
theorem Family.parallel_reader (rules : Rules) (enclosing : ℕ) :
    Parallel (fun e e' => e = e' ∧ e.Occurs) Eq (Family.reader rules enclosing)
      (Family.reader rules enclosing) := by
  refine (parallel_octetString rules enclosing).bind_same fun os => ?_
  cases Family.ofOctets? os with
  | none => exact .refuse ⟨rfl, by decide⟩ _
  | some family => exact .pure rfl

/-- An AS number is only refused because it is malformed. -/
theorem Asn.parallel_reader (rules : Rules) :
    Parallel (fun e e' => e = e' ∧ e.Occurs) Eq (Asn.reader rules) (Asn.reader rules) :=
  (parallel_unsigned32 rules ⟨rfl, by decide⟩).map fun _ _ => congrArg Asn.mk

namespace Content

/-- A version is only refused because it is not zero or should not be written. -/
theorem parallel_readVersion (rules : Rules) (strict : Bool) (enclosing : ℕ) :
    Parallel (fun e e' => e = e' ∧ e.Occurs) Eq (readVersion rules strict enclosing)
      (readVersion rules strict enclosing) := by
  refine (Parallel.constructed? Tag.context0 fun _ =>
    parallel_unsigned32 rules ⟨rfl, by decide⟩).bind fun version? version?' h => ?_
  cases h with
  | none => exact .pure rfl
  | some h =>
    subst h
    refine .check (.refuse ⟨rfl, by decide⟩ _) (.ite (.refuse ⟨rfl, by decide⟩ _) (.pure rfl))

/-- The stop by a refusal that there can be. -/
def Stopped (e : Refusal) (stop : Stop Refusal) : Prop := stop = .error e ∧ e.Occurs

variable {rules : Rules} {policy : Policy} {family : Family} {enclosing : ℕ}

/-- What relies on nothing is read the same way, if all of its refusals can occur. -/
theorem parallel_unguarded {α : Type} {r : Reader Refusal α}
    (h : Parallel (fun e e' => e = e' ∧ e.Occurs) Eq r r) :
    Parallel Stopped Eq r (Guarded.unguarded r) := by
  intro inp
  have hresult := h inp
  unfold Guarded.unguarded
  cases hread : r inp with
  | ok p => exact .ok rfl p.2
  | error failure =>
    rw [hread] at hresult
    obtain ⟨cause, place⟩ := failure
    cases cause with
    | encoding fault => exact .error (.encoding fault place)
    | content e =>
      cases hresult with
      | error hfail =>
        cases hfail with
        | content he => exact .error (.content ⟨rfl, he.2⟩ place)

/-- A bit string is read into words without misuse, and they are those of its prefix. -/
theorem parallel_prefixWords? (rules : Rules) (family : Family) (strict : Bool) (enclosing : ℕ) :
    Parallel Stopped
      (Option.Rel fun p words => words = PrefixWords.ofPrefix p ∧ p.length ≤ family.width)
      (Prefix.reader? rules family strict enclosing)
      (Guarded.prefixWords? rules family strict enclosing) := by
  refine (parallel_bitString? rules).bind fun s? s?' h => ?_
  cases h with
  | none => exact .pure .none
  | @some s s' h =>
    subst h
    dsimp only
    rw [PrefixWords.ofBitString_eq]
    cases hp : Prefix.ofBitString family strict s with
    | error fault => exact .refuse ⟨rfl, Prefix.occurs_of_ofBitString hp⟩ _
    | ok p => exact .pure (.some ⟨rfl, Prefix.length_le_of_ofBitString hp⟩)

/-- The list holds the prefixes of the blocks before and then those of this block. -/
structure Progress.Lists (before : List IpPrefix) (progress : Progress)
    (prefixes : List IpPrefix) : Prop where
  /-- The prefixes of the block stand behind those of the blocks before. -/
  prefixes_eq : prefixes = before ++ progress.reversed.reverse
  /-- The count is that of the list. -/
  count_eq : progress.count = prefixes.length

/-- The next prefix is compared with the last one of its block and put behind it, in the list of all
prefixes as in that of the block. -/
theorem parallel_nextPrefix? {before : List IpPrefix} {progress : Progress}
    {prefixes : List IpPrefix} (h : progress.Lists before prefixes) :
    Parallel Stopped (Option.Rel (Progress.Lists before))
      (nextPrefix? rules policy family enclosing progress)
      (Guarded.nextPrefix? rules policy family enclosing before.length prefixes) := by
  obtain ⟨hprefixes, hcount⟩ := h
  refine (parallel_prefixWords? rules family policy.strict enclosing).bind fun bits? words? h => ?_
  cases h with
  | none => exact .pure .none
  | @some bits words h =>
    obtain ⟨rfl, hlength⟩ := h
    have hstart : ¬prefixes.length < before.length := by
      rw [hprefixes, List.length_append]
      omega
    -- The last prefix of the block is the last one of the list behind its start.
    have hlast : (prefixes.drop before.length).getLast? = progress.reversed.head? := by
      rw [hprefixes, List.drop_left, List.getLast?_reverse]
    dsimp only
    rw [PrefixWords.toIpPrefix?_ofPrefix, IpPrefix.new?, dif_pos hlength]
    dsimp only
    rw [if_neg hstart, hlast, ← hcount]
    refine .check (.refuse ⟨rfl, by decide⟩ _) (.check (.refuse ⟨rfl, by decide⟩ _) ?_)
    refine .pure (.some ⟨?_, ?_⟩)
    · rw [hprefixes, List.reverse_cons, List.append_assoc]
    · rw [hcount, List.length_append, List.length_singleton]

/-- The prefixes of a block are put after those of the blocks before it. -/
theorem parallel_readPrefixes (before : List IpPrefix) :
    Parallel Stopped (fun block prefixes => prefixes = before ++ block)
      (readPrefixes rules policy family before.length)
      (Guarded.readPrefixes rules policy family before) := by
  refine Parallel.sequence fun start => ?_
  rw [← bind_pure (iterate _ before)]
  refine Parallel.bind (R := Progress.Lists before) ?_ fun _ _ h => .pure h.prefixes_eq
  exact .iterate (fun _ _ => parallel_nextPrefix?) ⟨(List.append_nil before).symm, rfl⟩

/-- What has been seen of the blocks. -/
structure Shows (blocks : List Block) (seen : Guarded.Seen) : Prop where
  /-- The blocks are counted. -/
  blocks_eq : seen.blocks = blocks.length
  /-- The flag for IPv4 says whether there is an IPv4 block. -/
  ipv4_eq : seen.ipv4 = blocks.any (·.family = .ipv4)
  /-- The flag for IPv6 says whether there is an IPv6 block. -/
  ipv6_eq : seen.ipv6 = blocks.any (·.family = .ipv6)
  /-- The list has the prefixes of the blocks, of which the last one comes first here. -/
  prefixes_eq : seen.prefixes = blocks.reverse.flatMap (·.prefixes)

/-- The list is as long as the blocks together. -/
theorem Shows.length_prefixes {blocks : List Block} {seen : Guarded.Seen} (h : Shows blocks seen) :
    seen.prefixes.length = (blocks.flatMap (·.prefixes)).length := by
  rw [h.prefixes_eq]
  exact ((List.reverse_perm blocks).flatMap_right _).length_eq

/-- Two flags know what the blocks say about their families. -/
theorem Shows.familyRefusal?_eq {blocks : List Block} {seen : Guarded.Seen}
    (h : Shows blocks seen) :
    seen.familyRefusal? family = familyRefusal? family blocks := by
  unfold familyRefusal?
  cases family with
  | ipv4 => rw [Guarded.Seen.familyRefusal?, h.ipv4_eq, h.ipv6_eq]; simp
  | ipv6 => rw [Guarded.Seen.familyRefusal?, h.ipv6_eq]; simp

/-- One more block sets the flag of its family and puts its prefixes at the end. -/
theorem Shows.add {blocks : List Block} {seen : Guarded.Seen} (h : Shows blocks seen)
    (family : Family) {block prefixes : List IpPrefix}
    (hprefixes : prefixes = seen.prefixes ++ block) :
    Shows (⟨family, block⟩ :: blocks) (seen.add family prefixes) where
  blocks_eq := congrArg (· + 1) h.blocks_eq
  ipv4_eq := by rw [List.any_cons, Bool.or_comm, ← h.ipv4_eq]; rfl
  ipv6_eq := by rw [List.any_cons, Bool.or_comm, ← h.ipv6_eq]; rfl
  prefixes_eq := by
    change prefixes = _
    rw [hprefixes, h.prefixes_eq, List.reverse_cons, List.flatMap_append, List.flatMap_singleton]

/-- What is refused about the family of a block can occur. -/
theorem occurs_of_familyRefusal? {blocks : List Block} {e : Refusal}
    (h : familyRefusal? family blocks = some e) : e.Occurs := by
  unfold familyRefusal? at h
  split_ifs at h <;> cases h <;> exact ⟨nofun, nofun⟩

/-- The next block is read the same way by what has been seen as by the blocks themselves. -/
theorem parallel_nextBlock? {blocks : List Block} {seen : Guarded.Seen} (h : Shows blocks seen) :
    Parallel Stopped (Option.Rel Shows) (nextBlock? rules policy blocks)
      (Guarded.nextBlock? rules policy seen) := by
  refine Parallel.constructed? Tag.sequence fun start => ?_
  refine .check_iff ?_ (.refuse ⟨rfl, by decide⟩ _) ?_
  · rw [h.blocks_eq]
    exact Nat.lt_succ_iff
  refine (parallel_unguarded (Family.parallel_reader rules start)).bind_same fun family => ?_
  have hprefixes : Parallel Stopped Shows
      (do
        let prefixes ← readPrefixes rules policy family (blocks.flatMap (·.prefixes)).length
        if prefixes.isEmpty then refuse .emptyBlock start
        return ⟨family, prefixes⟩ :: blocks)
      (do
        let prefixes ← Guarded.readPrefixes rules policy family seen.prefixes
        if prefixes.length = seen.prefixes.length then refuse (.error .emptyBlock) start
        return seen.add family prefixes) := by
    -- The count of prefixes is taken from the list, which holds those of all blocks.
    rw [← h.length_prefixes]
    refine (parallel_readPrefixes seen.prefixes).bind fun block prefixes hblock => ?_
    refine .check_iff ?_ (.refuse ⟨rfl, by decide⟩ _) (.pure (h.add family hblock))
    rw [hblock, List.length_append, List.isEmpty_iff, ← List.length_eq_zero_iff]
    omega
  rw [h.familyRefusal?_eq]
  cases hrefusal : familyRefusal? family blocks with
  | none => exact hprefixes
  | some e =>
    have hoccurs := occurs_of_familyRefusal? hrefusal
    exact (Parallel.refuse ⟨rfl, hoccurs⟩ _).bind_same fun _ => hprefixes

/-- Content is read the same way, guarded or not. -/
theorem parallel_reader (rules : Rules) (policy : Policy) :
    Parallel Stopped Eq (reader rules policy) (Guarded.reader rules policy) := by
  refine Parallel.sequence fun start => ?_
  refine (parallel_unguarded (parallel_readVersion rules policy.strict start)).bind_same fun _ => ?_
  refine (parallel_unguarded (Asn.parallel_reader rules)).bind_same fun asn => ?_
  refine Parallel.bind (R := Shows) (.sequence fun _ => ?_) fun blocks seen h => .pure ?_
  · exact .iterate (fun _ _ => parallel_nextBlock?) ⟨rfl, rfl, rfl, rfl⟩
  · rw [h.prefixes_eq]

/-- Guarded or not, what is read is the same, and only refusals that there can be are made. -/
theorem decode_alike (policy : Policy) (os : Octets) :
    Guarded.decode policy os = (decode policy os).mapError (Failure.map Stop.error) ∧
      ∀ failure e, decode policy os = .error failure → failure.cause = .content e → e.Occurs := by
  have hresult := parallel_reader (rulesOf policy) policy (Input.ofOctets os)
  unfold decode Guarded.decode
  generalize reader (rulesOf policy) policy (Input.ofOctets os) = result at hresult ⊢
  generalize Guarded.reader (rulesOf policy) policy (Input.ofOctets os) = result' at hresult ⊢
  cases hresult with
  | ok h out =>
    subst h
    dsimp only
    split_ifs with hend
    · exact ⟨rfl, nofun⟩
    · refine ⟨rfl, ?_⟩
      rintro failure e ⟨⟩ ⟨⟩
      decide
  | error h =>
    cases h with
    | encoding fault place =>
      refine ⟨rfl, ?_⟩
      rintro failure e ⟨⟩ ⟨⟩
    | content h place =>
      obtain ⟨rfl, hoccurs⟩ := h
      refine ⟨rfl, ?_⟩
      rintro failure e ⟨⟩ ⟨⟩
      exact hoccurs

end Content

end SignedPrefixes
