import SignedPrefixes.Proofs.Ber.Narrow
import SignedPrefixes.Proofs.Content.Canonical

/-!
# The bound on the number of prefixes

The number of prefixes is compared with the bound whenever one more is read. Two policies that
differ in nothing else read the same values up to the prefix that makes too many for one of them.
So the bound decides by the prefixes of both families together whether content is accepted, and by
nothing else. Content without prefixes is never compared with it.
-/

namespace SignedPrefixes.Content

open Ber Ber.Reader StateExcept

/-- Prefixes that, if there are any, are fewer than a bound together with those before. -/
def Below (n before : ℕ) (ps : List IpPrefix) : Prop := ps = [] ∨ before + ps.length < n

variable {rules : Rules} {policy : Policy} {family : Family} {enclosing n before : ℕ}
  {ps qs : List IpPrefix}

/-- Only the number of prefixes is compared with the bound. -/
theorem below_congr (h : ps.length = qs.length) : Below n before ps ↔ Below n before qs := by
  rw [Below, Below, ← List.length_eq_zero_iff, h, List.length_eq_zero_iff]

/-- Fewer prefixes are below the same bound. -/
theorem Below.of_sublist (h : Below n before ps) (hqs : qs.Sublist ps) : Below n before qs := by
  rcases h with rfl | h
  · exact .inl (List.sublist_nil.mp hqs)
  · exact .inr ((Nat.add_le_add_left hqs.length_le before).trans_lt h)

/-- Prefixes, if there are some, are below the bound with those before them. -/
theorem below_of_ne_nil (hps : ps ≠ []) : Below n before ps ↔ before + ps.length < n :=
  or_iff_right hps

/-- A lower bound only refuses a prefix that reaches it. -/
theorem narrows_nextPrefix? {progress : Progress}
    (hcount : progress.count = before + progress.reversed.length) :
    Narrows .manyPrefixes (fun next? => ∀ next ∈ next?, Below n before next.reversed)
      (nextPrefix? rules { policy with maxPrefixes := n } family enclosing progress)
      (nextPrefix? rules policy family enclosing progress) := by
  refine Narrows.bind_same fun bits? => ?_
  cases bits? with
  | none => exact narrows_pure nofun
  | some bits =>
    dsimp only
    cases IpPrefix.new? family bits with
    | none => exact (fails_refuse _ _).narrows
    | some p =>
      refine .check ((fails_refuse _ _).bind _) fun _ => ?_
      refine .limit ((fails_refuse _ _).bind _) ?_ _ _
      simp only [Option.mem_def, Option.some.injEq, forall_eq', not_le]
      rw [below_of_ne_nil (List.cons_ne_nil _ _), List.length_cons, hcount, Nat.add_assoc]

/-- The prefixes of a block are read under another bound if they are below it together with those
before. -/
theorem narrows_readPrefixes :
    Narrows .manyPrefixes (Below n before)
      (readPrefixes rules { policy with maxPrefixes := n } family before)
      (readPrefixes rules policy family before) := by
  refine Narrows.sequence fun start => ?_
  have hloop : Narrows .manyPrefixes (fun progress => Below n before progress.reversed)
      (iterate (nextPrefix? rules { policy with maxPrefixes := n } family start) ⟨[], before⟩)
      (iterate (nextPrefix? rules policy family start) ⟨[], before⟩) := by
    refine .iterate (fun progress => progress.count = before + progress.reversed.length)
      (fun progress hcount _ => narrows_nextPrefix? hcount) ?_ rfl (.inl rfl)
    rintro progress inp next out hcount hread
    obtain ⟨p, -, rfl, -⟩ := nextPrefix?_eq_ok_some hread
    refine ⟨?_, fun hbelow => hbelow.of_sublist (List.sublist_cons_self p _)⟩
    rw [hcount, List.length_cons, Nat.add_assoc]
  refine hloop.andThen fun progress inp ps out h => ?_
  cases h
  exact below_congr List.length_reverse

/-- A lower bound only refuses a block whose prefixes reach it. -/
theorem narrows_nextBlock? (blocks : List Block) :
    Narrows .manyPrefixes (fun next? => ∀ next ∈ next?, Below n 0 (next.flatMap (·.prefixes)))
      (nextBlock? rules { policy with maxPrefixes := n } blocks)
      (nextBlock? rules policy blocks) := by
  refine Narrows.constructed? _ fun start => ?_
  refine .check ((fails_refuse _ _).bind _) fun _ => ?_
  refine Narrows.bind_same fun family => ?_
  cases familyRefusal? family blocks with
  | some refusal => exact ((fails_refuse _ _).bind _).narrows
  | none =>
    refine narrows_readPrefixes.andThen fun ps inp next out h => ?_
    simp only [branch_apply, bind_of_error (refuse_apply _ _), ite_error_eq_ok_iff] at h
    obtain ⟨hne, h⟩ := h
    cases h
    -- A block has prefixes, so on neither side there are none.
    have hps : ps ≠ [] := by simpa using hne
    rw [below_of_ne_nil hps, below_of_ne_nil (by simp [hps]), List.flatMap_cons,
      List.length_append, Nat.zero_add, Nat.add_comm]

/-- Content is read under another bound if its prefixes are below it. -/
theorem narrows_reader :
    Narrows .manyPrefixes (fun c => Below n 0 c.prefixes)
      (reader rules { policy with maxPrefixes := n }) (reader rules policy) := by
  refine Narrows.sequence fun start => ?_
  refine Narrows.bind_same fun _ => Narrows.bind_same fun asn => ?_
  have hloop : Narrows .manyPrefixes (fun blocks => Below n 0 (blocks.flatMap (·.prefixes)))
      (iterate (nextBlock? rules { policy with maxPrefixes := n }) [])
      (iterate (nextBlock? rules policy) []) := by
    refine .iterate (fun _ => True) (fun blocks _ _ => narrows_nextBlock? blocks) ?_ trivial
      (.inl rfl)
    rintro blocks inp next out - hread
    obtain ⟨b, rfl, -⟩ := nextBlock?_eq_ok_some hread
    exact ⟨trivial, fun hbelow => hbelow.of_sublist (List.sublist_append_right b.prefixes _)⟩
  refine (Narrows.sequence fun _ => hloop).andThen fun blocks inp c out h => ?_
  cases h
  exact below_congr (length_prefixes_reverse blocks)

/-- Whether octets that hold content are accepted under another bound depends on the number of
prefixes only. -/
theorem decode_of_maxPrefixes {os : Octets} {c : Content} (h : decode policy os = .ok c) (n : ℕ) :
    (Below n 0 c.prefixes → decode { policy with maxPrefixes := n } os = .ok c) ∧
      (¬Below n 0 c.prefixes → ∃ place,
        decode { policy with maxPrefixes := n } os = .error ⟨.content .manyPrefixes, place⟩) := by
  obtain ⟨after, hread, hend⟩ := decode_eq_ok_iff.mp h
  obtain ⟨hpass, hstop⟩ := narrows_reader (n := n) _ c after hread
  refine ⟨fun hbelow => decode_eq_ok_iff.mpr ⟨after, hpass hbelow, hend⟩, fun hbelow => ?_⟩
  obtain ⟨place, hplace⟩ := hstop hbelow
  refine ⟨place, ?_⟩
  unfold decode
  rw [show rulesOf { policy with maxPrefixes := n } = rulesOf policy from rfl, hplace]

/-- Content that is accepted has fewer prefixes than the bound, unless the bound is zero. Then it
has none. Under every other bound the same octets are accepted just if they hold no prefixes or
fewer than that, and they are refused for the number of prefixes otherwise. -/
theorem ceiling_enforced {os : Octets} {c : Content} (h : decode policy os = .ok c) :
    (policy.maxPrefixes ≠ 0 → c.prefixes.length < policy.maxPrefixes) ∧
    (policy.maxPrefixes = 0 → c.prefixes = []) ∧
    ∀ n,
      (decode { policy with maxPrefixes := n } os = .ok c ↔
        c.prefixes = [] ∨ c.prefixes.length < n) ∧
      (c.prefixes ≠ [] → n ≤ c.prefixes.length → ∃ place,
        decode { policy with maxPrefixes := n } os = .error ⟨.content .manyPrefixes, place⟩) := by
  have hbelow (n : ℕ) : Below n 0 c.prefixes ↔ c.prefixes = [] ∨ c.prefixes.length < n := by
    rw [Below, Nat.zero_add]
  have hcount := (decode_eq_ok h).2.1
  refine ⟨fun hn => ?_, fun hn => ?_, fun n => ⟨⟨fun hn => ?_, fun hn => ?_⟩, fun hne hn => ?_⟩⟩
  · rcases hcount with hnil | hlt
    · rw [hnil]
      exact Nat.pos_of_ne_zero hn
    · exact hlt
  · rw [hn] at hcount
    exact hcount.resolve_right (Nat.not_lt_zero _)
  · exact (decode_eq_ok hn).2.1
  · exact (decode_of_maxPrefixes h n).1 ((hbelow n).mpr hn)
  · exact (decode_of_maxPrefixes h n).2 fun hb => ((hbelow n).mp hb).elim hne hn.not_gt

/-- Two prefixes are accepted under a bound of three, but not under one of two. -/
theorem ceiling_enforced_sample :
    decode ⟨true, 3⟩ sampleOctets = .ok sample ∧ sample.prefixes.length < 3 ∧
      ∃ place, decode ⟨true, 2⟩ sampleOctets = .error ⟨.content .manyPrefixes, place⟩ := by
  have hdecode : decode ⟨true, 3⟩ sampleOctets = .ok sample := by decide +kernel
  obtain ⟨hlt, -, hexact⟩ := ceiling_enforced hdecode
  exact ⟨hdecode, hlt (by decide), (hexact 2).2 (by decide) (by decide)⟩

/-- Content without prefixes is accepted under a bound of zero, and zero prefixes are not fewer
than that. -/
theorem decode_of_maxPrefixes_zero :
    decode ⟨true, 0⟩ [48, 5, 2, 1, 1, 48, 0] = .ok ⟨⟨1⟩, []⟩ ∧
      ¬(⟨⟨1⟩, []⟩ : Content).prefixes.length < (⟨true, 0⟩ : Policy).maxPrefixes := by
  decide +kernel

end SignedPrefixes.Content
