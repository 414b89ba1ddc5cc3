import Mathlib
import SignedPrefixes.Asn
import SignedPrefixes.IpPrefix
import SignedPrefixes.Time

/-!
# Linear orders

AS numbers, prefixes and times are ordered by a comparison that tells any two
different values apart. Each of these orders is linear.
-/

namespace SignedPrefixes

/-- The linear order of a type whose `≤` and `<` are read off its comparison. -/
abbrev linearOrderOfCompare {α : Type} [Ord α] [Std.TransOrd α] [Std.LawfulEqOrd α] [DecidableEq α]
    [LE α] [LT α] (hle : ∀ a b : α, a ≤ b ↔ compare a b ≠ .gt)
    (hlt : ∀ a b : α, a < b ↔ compare a b = .lt) : LinearOrder α where
  le_refl a := by
    have hself : compare a a = .eq := Std.ReflCmp.compare_self
    rw [hle, hself]
    decide
  le_trans a b c hab hbc := by
    have hab := Ordering.isLE_iff_ne_gt.mpr ((hle a b).mp hab)
    have hbc := Ordering.isLE_iff_ne_gt.mpr ((hle b c).mp hbc)
    exact (hle a c).mpr (Ordering.isLE_iff_ne_gt.mp (Std.TransCmp.isLE_trans hab hbc))
  lt_iff_le_not_ge a b := by
    rw [hlt, hle, hle, Std.OrientedOrd.eq_swap (a := b)]
    cases compare a b <;> decide
  le_antisymm a b hab hba := by
    have hab := Ordering.isLE_iff_ne_gt.mpr ((hle a b).mp hab)
    have hba := Ordering.isLE_iff_ne_gt.mpr ((hle b a).mp hba)
    exact Std.LawfulEqOrd.eq_of_compare (Std.OrientedCmp.isLE_antisymm hab hba)
  le_total a b := by
    rw [hle, hle, Std.OrientedOrd.eq_swap (a := b)]
    cases compare a b <;> decide
  toDecidableEq := inferInstance
  toDecidableLE a b := decidable_of_iff _ (hle a b).symm
  toDecidableLT a b := decidable_of_iff _ (hlt a b).symm
  compare_eq_compareOfLessAndEq a b := by
    unfold compareOfLessAndEq
    by_cases hab : a < b
    · rw [if_pos hab, (hlt a b).mp hab]
    · by_cases heq : a = b
      · rw [if_neg hab, if_pos heq, heq]
        exact Std.ReflCmp.compare_self
      · rw [if_neg hab, if_neg heq]
        rw [hlt] at hab
        have hne : compare a b ≠ .eq := fun h => heq (Std.LawfulEqOrd.eq_of_compare h)
        revert hab hne
        cases compare a b <;> decide

instance : LinearOrder IpPrefix :=
  linearOrderOfCompare (fun _ _ => Iff.rfl) (fun _ _ => Iff.rfl)

namespace IpPrefix

variable {p q : IpPrefix}

/-- Prefixes are compared by their families, then by their addresses as numbers, and then by their
lengths. -/
theorem compare_eq (p q : IpPrefix) :
    compare p q = (compare p.family q.family).then
      ((compare p.bits.address.bits.toNat q.bits.address.bits.toNat).then
        (compare p.length q.length)) := rfl

/-- IPv4 comes before IPv6. -/
theorem lt_of_family (hp : p.family = .ipv4) (hq : q.family = .ipv6) : p < q := by
  change compare p q = .lt
  rw [compare_eq, hp, hq]
  rfl

/-- Nothing after an IPv6 prefix is IPv4. -/
theorem family_of_lt (hlt : p < q) (hp : p.family = .ipv6) : q.family = .ipv6 := by
  cases hq : q.family with
  | ipv4 => exact absurd (lt_of_family hq hp) (lt_asymm hlt)
  | ipv6 => rfl

end IpPrefix

instance : Std.LawfulEqOrd Time where
  eq_of_compare {s t} h := by
    obtain ⟨hseconds, hnanos⟩ := Ordering.then_eq_eq.mp h
    have hseconds : s.seconds = t.seconds := Std.LawfulEqOrd.eq_of_compare hseconds
    have hnanos : s.nanos = t.nanos := Std.LawfulEqOrd.eq_of_compare hnanos
    cases s
    cases t
    cases hseconds
    cases hnanos
    rfl

instance : LinearOrder Time :=
  linearOrderOfCompare (fun _ _ => Iff.rfl) (fun _ _ => Iff.rfl)

instance : LinearOrder Asn :=
  linearOrderOfCompare
    (fun a _ => (Std.isLE_compare (a := a.number)).symm.trans Ordering.isLE_iff_ne_gt)
    (fun a _ => (Std.compare_eq_lt (a := a.number)).symm)

end SignedPrefixes
