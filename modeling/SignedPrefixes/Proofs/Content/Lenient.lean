import SignedPrefixes.Proofs.Ber.Lenient
import SignedPrefixes.Proofs.Content.Canonical

/-!
# Lenient policies

A policy is more lenient than another one if it does not ask for DER where the other
does not, and does not allow fewer prefixes. Together with rules that allow more, it
accepts whatever the other one accepts, as the same content and up to the same place.
Each reader extends its strict form, from the bit strings up to the content.
-/

namespace SignedPrefixes

open Ber Ber.Reader

/-- A policy comes before the policies that are more lenient. -/
instance : LE Policy := ⟨fun policy policy' =>
  (policy'.strict = true → policy.strict = true) ∧ policy.maxPrefixes ≤ policy'.maxPrefixes⟩

instance (policy policy' : Policy) : Decidable (policy ≤ policy') :=
  inferInstanceAs (Decidable ((_ → _) ∧ _))

variable {rules rules' : Rules} {policy policy' : Policy} {family : Family} {enclosing : ℕ}

/-- An AS number is also read under looser rules. -/
theorem Asn.extends_reader (hrules : rules ≤ rules') :
    Extends (Asn.reader rules') (Asn.reader rules) :=
  (extends_unsigned32 hrules _).map _

/-- A family is also read under looser rules. -/
theorem Family.extends_reader (hrules : rules ≤ rules') (enclosing : ℕ) :
    Extends (Family.reader rules' enclosing) (Family.reader rules enclosing) :=
  (extends_octetString hrules enclosing).bind fun _ => .refl _

/-- A prefix is also read under looser rules and without strictness. -/
theorem Prefix.extends_reader? {strict strict' : Bool} (hrules : rules ≤ rules')
    (hstrict : strict' = true → strict = true) :
    Extends (reader? rules' family strict' enclosing) (reader? rules family strict enclosing) := by
  refine (extends_bitString? hrules).bind fun s? => ?_
  cases s? with
  | none => exact .refl _
  | some s =>
    dsimp only
    cases hp : ofBitString family strict s with
    | error fault => exact (fails_refuse _ _).extends _
    | ok p =>
      rw [ofBitString_of_imp hstrict hp]
      exact .refl _

namespace Content

/-- The next prefix is also read under a looser policy, where more prefixes are allowed. -/
theorem extends_nextPrefix? (hrules : rules ≤ rules') (hpolicy : policy ≤ policy')
    (progress : Progress) :
    Extends (nextPrefix? rules' policy' family enclosing progress)
      (nextPrefix? rules policy family enclosing progress) := by
  refine (Prefix.extends_reader? hrules hpolicy.1).bind fun bits? => ?_
  cases bits? with
  | none => exact .refl _
  | some bits =>
    dsimp only
    cases IpPrefix.new? family bits with
    | none => exact .refl _
    | some p =>
      refine .check id ((fails_refuse _ _).bind _) fun _ => ?_
      exact .check hpolicy.2.trans ((fails_refuse _ _).bind _) fun _ => .refl _

/-- The prefixes of a block are also read under a looser policy. -/
theorem extends_readPrefixes (hrules : rules ≤ rules') (hpolicy : policy ≤ policy')
    (before : ℕ) :
    Extends (readPrefixes rules' policy' family before)
      (readPrefixes rules policy family before) :=
  Extends.sequence hrules fun _ =>
    (Extends.iterate (extends_nextPrefix? hrules hpolicy) _).bind fun _ => .refl _

/-- The next block is also read under a looser policy. -/
theorem extends_nextBlock? (hrules : rules ≤ rules') (hpolicy : policy ≤ policy')
    (blocks : List Block) :
    Extends (nextBlock? rules' policy' blocks) (nextBlock? rules policy blocks) := by
  refine Extends.constructed? hrules _ fun start => ?_
  refine .check id ((fails_refuse _ _).bind _) fun _ => ?_
  refine (Family.extends_reader hrules start).bind fun family => ?_
  cases familyRefusal? family blocks with
  | some refusal => exact ((fails_refuse _ _).bind _).extends _
  | none => exact (extends_readPrefixes hrules hpolicy _).bind fun _ => .refl _

/-- The version is also read under a looser policy, where zero may be written out. -/
theorem extends_readVersion (hrules : rules ≤ rules') (hpolicy : policy ≤ policy') :
    Extends (readVersion rules' policy'.strict enclosing)
      (readVersion rules policy.strict enclosing) := by
  have hversion := Extends.constructed? hrules Tag.context0 fun _ =>
    extends_unsigned32 hrules Refusal.unsupportedVersion
  refine hversion.bind fun version? => ?_
  cases version? with
  | none => exact .refl _
  | some version =>
    refine .check id ((fails_refuse _ _).bind _) fun _ => ?_
    exact .check hpolicy.1 (fails_refuse _ _) fun _ => .refl _

/-- A reader of content reads whatever it reads under other rules and another policy, if both
allow no more than its own. -/
theorem extends_reader (hrules : rules ≤ rules') (hpolicy : policy ≤ policy') :
    Extends (reader rules' policy') (reader rules policy) := by
  refine Extends.sequence hrules fun start => ?_
  refine (extends_readVersion hrules hpolicy).bind fun _ => ?_
  refine (Asn.extends_reader hrules).bind fun asn => ?_
  refine Extends.bind ?_ fun blocks => .refl _
  exact Extends.sequence hrules fun _ => .iterate (extends_nextBlock? hrules hpolicy) _

/-- A looser policy does not ask for stricter rules. -/
theorem rulesOf_le (hpolicy : policy ≤ policy') : rulesOf policy ≤ rulesOf policy' := by
  unfold rulesOf
  by_cases hstrict : policy'.strict = true
  · rw [if_pos hstrict, if_pos (hpolicy.1 hstrict)]
    exact .inr rfl
  · rw [if_neg hstrict]
    exact .inl rfl

/-- Content is also accepted under a looser policy, and it is the same content. -/
theorem decode_of_le {os : Octets} {c : Content} (hpolicy : policy ≤ policy')
    (h : decode policy os = .ok c) : decode policy' os = .ok c := by
  obtain ⟨after, hread, hend⟩ := decode_eq_ok_iff.mp h
  exact decode_eq_ok_iff.mpr ⟨after, extends_reader (rulesOf_le hpolicy) hpolicy _ _ hread, hend⟩

/-- Leniency is monotone. What is accepted at the start of octets is also accepted by rules and
a policy that allow more, as the same content and with the same octets left. So is what is
decoded, and in particular what is decoded strictly is decoded without insisting on DER. -/
theorem accepted_of_le (hrules : rules ≤ rules') (hpolicy : policy ≤ policy') :
    (∀ os c rest, (reader rules policy).runOn os = .ok (c, rest) →
      (reader rules' policy').runOn os = .ok (c, rest)) ∧
    (∀ os c, decode policy os = .ok c → decode policy' os = .ok c) ∧
    ∀ maxPrefixes os c, decode ⟨true, maxPrefixes⟩ os = .ok c →
      decode ⟨false, maxPrefixes⟩ os = .ok c := by
  refine ⟨fun os c rest => (extends_reader hrules hpolicy).runOn, fun os c => decode_of_le hpolicy,
    fun n os c => decode_of_le ?_⟩
  exact ⟨fun _ => rfl, Nat.le_refl n⟩

/-- What a strict policy accepts in front of other octets is accepted in BER under a policy that
is not strict and allows one prefix more, and the other octets are left. -/
theorem accepted_of_le_sample :
    Rules.der ≤ .ber ∧ (⟨true, 3⟩ : Policy) ≤ ⟨false, 4⟩ ∧
      (reader .der ⟨true, 3⟩).runOn (sampleOctets ++ [5, 0]) = .ok (sample, [5, 0]) ∧
      (reader .ber ⟨false, 4⟩).runOn (sampleOctets ++ [5, 0]) = .ok (sample, [5, 0]) ∧
      decode ⟨false, 4⟩ sampleOctets = .ok sample := by
  have hrules : Rules.der ≤ .ber := by decide
  have hpolicy : (⟨true, 3⟩ : Policy) ≤ ⟨false, 4⟩ := by decide
  have hread : (reader .der ⟨true, 3⟩).runOn (sampleOctets ++ [5, 0]) = .ok (sample, [5, 0]) := by
    decide +kernel
  have hdecode : decode ⟨true, 3⟩ sampleOctets = .ok sample := by decide +kernel
  obtain ⟨hreader, hdecoded, -⟩ := accepted_of_le hrules hpolicy
  exact ⟨hrules, hpolicy, hread, hreader _ _ _ hread, hdecoded _ _ hdecode⟩

end Content

end SignedPrefixes
