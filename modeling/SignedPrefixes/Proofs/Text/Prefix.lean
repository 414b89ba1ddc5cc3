import SignedPrefixes.Json.Forms
import SignedPrefixes.Proofs.IpAddress
import SignedPrefixes.Proofs.Text.Asn
import SignedPrefixes.Proofs.Text.Ipv6

/-!
# The text of prefixes

What is written for a prefix is read as that prefix, so different prefixes have different texts
and each text that is read has a normal form. Prefixes are exchanged as their texts.
-/

namespace SignedPrefixes

namespace IpAddress

/-- What is written for an address of either family is read as that address. -/
theorem read?_chars (a : IpAddress) : read? a.chars = some a := by
  cases a with
  | ipv4 a => simp only [chars, read?, a.read?_chars]
  | ipv6 a =>
    have hnone : Ipv4.read? a.chars = none := by
      by_contra hread
      obtain ⟨b, hb⟩ := Option.ne_none_iff_exists'.mp hread
      exact absurd (Ipv4.subset_of_read? hb ':' a.colon_mem_chars) (by decide)
    simp only [chars, read?, hnone, a.read?_chars, Option.map_some]

/-- There is no slash in the text of an address. -/
theorem slash_notMem_chars (a : IpAddress) : '/' ∉ a.chars := by
  cases a with
  | ipv4 a => exact fun hmem => absurd (a.chars_subset '/' hmem) (by decide)
  | ipv6 a => exact a.slash_notMem_chars

end IpAddress

namespace IpPrefix

/-- What is written for a prefix is read as that prefix. -/
theorem read_toString (p : IpPrefix) : read (toString p) = .ok p := by
  have htext : (toString p).toList = p.chars := String.toList_ofList
  have hspan : p.chars.span (· ≠ '/') = (p.address.chars, '/' :: Nat.toDigits 10 p.length) := by
    have hall : ∀ c ∈ p.address.chars, decide (c ≠ '/') = true := by
      intro c hc
      refine decide_eq_true ?_
      rintro rfl
      exact p.address.slash_notMem_chars hc
    rw [List.span_eq_takeWhile_dropWhile, chars, List.takeWhile_append_of_pos hall,
      List.dropWhile_append_of_pos hall]
    simp
  have hlength : Numeral.read 255 (Nat.toDigits 10 p.length) = .ok p.length :=
    Numeral.read_toDigits (p.bits.length_le.trans (by decide))
  rw [read, htext]
  unfold readChars
  rw [hspan]
  dsimp only
  rw [p.address.read?_chars]
  dsimp only
  rw [hlength]
  dsimp only
  rw [ofIpAddress?_address]

/-- The text that is written for what is read. -/
def normalForm (s : String) : Except TextError String := (read s).map toString

/-- The normal form of a text is the text of the prefix that is read from it. -/
theorem normalForm_eq_ok_iff {s t : String} :
    normalForm s = .ok t ↔ ∃ p, read s = .ok p ∧ toString p = t := by
  unfold normalForm
  cases read s <;> simp [Except.map]

/-- Reading gives back what was written, for prefixes of both families and for AS numbers.
Different prefixes have different texts. A text that is read has a normal form, which is read as
the same prefix and is its own normal form, and two texts have the same normal form if they are
read as the same prefix. The address of an IPv6 prefix is written by the rules, which leave no
choice. A prefix is exchanged as its text. -/
theorem text_roundTrip :
    (∀ p : IpPrefix, read (toString p) = .ok p) ∧
    Function.Injective (toString : IpPrefix → String) ∧
    (∀ s t, normalForm s = .ok t → read t = read s ∧ normalForm t = .ok t) ∧
    (∀ s s' p, read s = .ok p → (read s' = .ok p ↔ normalForm s' = normalForm s)) ∧
    (∀ asn : Asn, Asn.read (toString asn) = .ok asn) ∧
    (∀ (a : Ipv6) (cs : List Char), a.IsText cs ↔ cs = a.chars) ∧
    (∀ p : IpPrefix, p.toJson = .string (toString p) ∧ ofJson p.toJson = .ok p) ∧
    ∀ s, ofJson (.string s) = (read s).mapError .notPrefix := by
  have hinjective : Function.Injective (toString : IpPrefix → String) := by
    intro p q heq
    have hread := q.read_toString
    rw [← heq, p.read_toString] at hread
    exact Except.ok.inj hread
  refine ⟨read_toString, hinjective, fun s t h => ?_, fun s s' p h => ?_, fun asn => ?_,
    fun a cs => Ipv6.isText_iff, fun p => ⟨rfl, ?_⟩, fun s => rfl⟩
  · obtain ⟨p, hp, rfl⟩ := normalForm_eq_ok_iff.mp h
    exact ⟨p.read_toString.trans hp.symm, normalForm_eq_ok_iff.mpr ⟨p, p.read_toString, rfl⟩⟩
  · have hs : normalForm s = .ok (toString p) := normalForm_eq_ok_iff.mpr ⟨p, h, rfl⟩
    rw [hs, normalForm_eq_ok_iff]
    refine ⟨fun hp => ⟨p, hp, rfl⟩, ?_⟩
    rintro ⟨q, hq, heq⟩
    rw [hq, hinjective heq]
  · have htext : (toString asn).toList = asn.chars := String.toList_ofList
    rw [Asn.read, htext, Asn.readChars_chars]
  · change (read (toString p)).mapError _ = _
    rw [p.read_toString]
    rfl

/-- A prefix of addresses that stand for IPv4 addresses, written with capital letters and with a
bit after its length, has its normal form in the dotted form. -/
theorem text_roundTrip_dotted :
    ∃ p, read "0:0:0:0:0:FFFF:C000:24D/120" = .ok p ∧ toString p = "::ffff:192.0.2.0/120" ∧
      read "::ffff:192.0.2.0/120" = .ok p := by
  obtain ⟨-, -, hnormal, -⟩ := text_roundTrip
  have hform : normalForm "0:0:0:0:0:FFFF:C000:24D/120" = .ok "::ffff:192.0.2.0/120" := by
    decide +kernel
  obtain ⟨p, hp, htext⟩ := normalForm_eq_ok_iff.mp hform
  exact ⟨p, hp, htext, (hnormal _ _ hform).1.trans hp⟩

end IpPrefix

end SignedPrefixes
