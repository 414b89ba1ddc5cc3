import SignedPrefixes.Json.Forms
import SignedPrefixes.Proofs.Text.Numeral
import SignedPrefixes.Proofs.Time

/-!
# The texts of times

The exact text of a time is read as that time, whatever year it is in and whatever part of a
second it has. Each part of the text is read up to the next part, either because no more digits
are taken or because what comes next is no digit.
-/

namespace SignedPrefixes.Time

section Padded

variable {width n : ℕ}

/-- A number is padded with digits. -/
theorem isDigit_of_mem_padded {c : Char} (hc : c ∈ padded width n) : c.isDigit = true := by
  rcases List.mem_append.mp hc with hc | hc
  · rw [List.eq_of_mem_replicate hc]
    rfl
  · exact Numeral.isDigit_of_mem_toDigits hc

/-- There is a digit even for zero. -/
theorem padded_ne_nil : padded width n ≠ [] := by
  simp [padded, Nat.toDigits_ne_nil]

/-- A number that fits a width is padded to it. -/
theorem length_padded (hwidth : 0 < width) (hn : n < 10 ^ width) :
    (padded width n).length = width := by
  have hle := (Nat.length_toDigits_le_iff (by decide) hwidth).mpr hn
  simp only [padded, List.length_append, List.length_replicate]
  omega

/-- The zeros in front of a number do not change it. -/
theorem ofDigitChars_padded : Nat.ofDigitChars 10 (padded width n) 0 = n := by
  rw [padded, Nat.ofDigitChars_append, Nat.ofDigitChars_replicate_zero, Nat.mul_zero,
    Nat.ofDigitChars_ten_toDigits]

end Padded

namespace Scan

variable {α β : Type} {cs mid ds rest : List Char} {c : Char} {n width : ℕ}

/-- What comes second starts at the characters that are left. -/
theorem bind_of_some {x : Scan α} {a : α} (hx : x cs = some (a, mid)) (f : α → Scan β) :
    (x >>= f) cs = f a mid := by
  change (x cs).bind (fun p => f p.1 p.2) = _
  rw [hx]
  rfl

theorem get_apply : (get : Scan (List Char)) cs = some (cs, cs) := rfl

theorem set_apply : (set mid : Scan PUnit) cs = some (⟨⟩, mid) := rfl

theorem modify_apply (f : List Char → List Char) :
    (modify f : Scan PUnit) cs = some (⟨⟩, f cs) := rfl

theorem char_cons : char (c :: cs) = some (c, cs) := rfl

/-- A condition that holds takes nothing. -/
theorem guard_of {p : Prop} [Decidable p] (hp : p) : (guard p : Scan Unit) cs = some ((), cs) := by
  rw [guard, if_pos hp]
  rfl

/-- No digit comes first. -/
def NoDigit (cs : List Char) : Prop := ∀ c ∈ cs.head?, c.isDigit = false

/-- Digits end at a character that is none. -/
theorem noDigit_cons (hc : c.isDigit = false) : NoDigit (c :: cs) := by
  simpa [NoDigit] using hc

/-- A character that is not blank is not passed over. -/
theorem blanks_cons (hc : isBlank c = false) : blanks (c :: cs) = some ((), c :: cs) := by
  change some ((), (c :: cs).dropWhile isBlank) = _
  rw [List.dropWhile_cons_of_neg (by simp [hc])]

/-- Digits are not blank. -/
theorem isBlank_of_isDigit (hc : c.isDigit = true) : isBlank c = false := by
  obtain ⟨hfirst, hlast⟩ := Char.isDigit_iff_toNat.mp hc
  simp only [isBlank, decide_eq_false_iff_not]
  change 48 ≤ c.toNat at hfirst
  change c.toNat ≤ 57 at hlast
  omega

/-- A separator that stands without blanks is taken. -/
theorem separator_cons (hc : isBlank c = false) :
    separator c (c :: cs) = some ((), cs) := by
  rw [separator, bind_of_some (blanks_cons hc), literal,
    bind_of_some char_cons]
  exact guard_of rfl

/-- Digits are taken up to the most that are allowed or up to what is no digit. -/
theorem digits_append {most : ℕ} (hne : ds ≠ []) (hdigits : ∀ c ∈ ds, c.isDigit = true)
    (hmost : ds.length ≤ most) (hrest : ds.length = most ∨ NoDigit rest) :
    digits most (ds ++ rest) = some (ds, rest) := by
  have hnone : (rest.take (most - ds.length)).takeWhile Char.isDigit = [] := by
    rcases hrest with rfl | hrest
    · simp
    · cases rest with
      | nil => simp
      | cons c cs =>
        have hc : c.isDigit = false := hrest c rfl
        cases most - ds.length <;> simp [hc]
  have htaken : ((ds ++ rest).take most).takeWhile Char.isDigit = ds := by
    rw [List.take_append, List.take_of_length_le hmost, List.takeWhile_append_of_pos hdigits,
      hnone, List.append_nil]
  rw [digits, bind_of_some get_apply, htaken, bind_of_some (guard_of hne), List.drop_left,
    bind_of_some set_apply]
  rfl

/-- A number in as many digits as are taken at most is read, whatever follows it. -/
theorem number_padded (hwidth : 0 < width) (hn : n < 10 ^ width) :
    number width (padded width n ++ rest) = some (n, rest) := by
  have hlength := length_padded hwidth hn
  rw [number, bind_of_some (digits_append padded_ne_nil (fun _ => isDigit_of_mem_padded)
    hlength.le (.inl hlength)), ofDigitChars_padded]
  rfl

/-- Digits are not passed over as blanks. -/
theorem blanks_append (hne : ds ≠ []) (hdigits : ∀ c ∈ ds, c.isDigit = true) :
    blanks (ds ++ rest) = some ((), ds ++ rest) := by
  obtain ⟨c, cs, rfl⟩ := List.exists_cons_of_ne_nil hne
  exact blanks_cons (isBlank_of_isDigit (hdigits c List.mem_cons_self))

/-- A number of two digits is taken, whatever follows it. -/
theorem field_padded (hn : n < 100) : field (padded 2 n ++ rest) = some (n, rest) := by
  rw [field, bind_of_some (blanks_append padded_ne_nil fun _ => isDigit_of_mem_padded)]
  exact number_padded (by decide) hn

section Year

/-- A year after a minus sign has as many digits as there are. -/
private theorem year_minus (cs : List Char) :
    year ('-' :: cs) = (number cs.length >>= fun n => pure (-(n : ℤ))) cs := by
  rw [year, bind_of_some (blanks_cons (by decide)), bind_of_some get_apply]
  exact bind_of_some set_apply _

/-- A year after a plus sign has as many digits as there are. -/
private theorem year_plus (cs : List Char) :
    year ('+' :: cs) = (number cs.length >>= fun n => pure (n : ℤ)) cs := by
  rw [year, bind_of_some (blanks_cons (by decide)), bind_of_some get_apply]
  exact bind_of_some set_apply _

/-- A year without a sign has at most four digits. -/
private theorem year_of_isDigit (hc : c.isDigit = true) :
    year (c :: cs) = (number 4 >>= fun n => pure (n : ℤ)) (c :: cs) := by
  rw [year, bind_of_some (blanks_cons (isBlank_of_isDigit hc)), bind_of_some get_apply]
  refine congrFun ?_ (c :: cs)
  split
  · next heq =>
    obtain ⟨rfl, -⟩ := List.cons.inj heq
    exact absurd hc (by decide)
  · next heq =>
    obtain ⟨rfl, -⟩ := List.cons.inj heq
    exact absurd hc (by decide)
  · rfl

/-- A year is read up to what is no digit. -/
theorem year_yearChars (y : ℤ) (hrest : NoDigit rest) :
    year (yearChars y ++ rest) = some (y, rest) := by
  have hdigits (n : ℕ) : ∀ c ∈ padded 4 n, c.isDigit = true := fun _ => isDigit_of_mem_padded
  have hsigned : number (padded 4 y.natAbs ++ rest).length (padded 4 y.natAbs ++ rest) =
      some (y.natAbs, rest) := by
    rw [number, bind_of_some (digits_append padded_ne_nil (hdigits _) (by simp) (.inr hrest)),
      ofDigitChars_padded]
    rfl
  unfold yearChars
  split_ifs with hfour hneg
  · have hnumber : number 4 (padded 4 y.toNat ++ rest) = some (y.toNat, rest) :=
      number_padded (by decide) (by omega)
    have hne : padded 4 y.toNat ≠ [] := padded_ne_nil
    obtain ⟨c, cs, hcs⟩ := List.exists_cons_of_ne_nil hne
    rw [hcs, List.cons_append] at hnumber ⊢
    rw [year_of_isDigit (hdigits _ c (hcs ▸ List.mem_cons_self)), bind_of_some hnumber,
      Int.toNat_of_nonneg hfour.1]
    rfl
  · rw [List.cons_append, year_minus, bind_of_some hsigned, Int.ofNat_natAbs_of_nonpos hneg.le,
      neg_neg]
    rfl
  · rw [List.cons_append, year_plus, bind_of_some hsigned, Int.natAbs_of_nonneg (not_lt.mp hneg)]
    rfl

end Year

section Fraction

/-- A fraction of up to nine digits is taken in nanoseconds. -/
private theorem fraction_padded {width : ℕ} (hwidth : 0 < width) (hnine : width ≤ 9)
    (hn : n < 10 ^ width) (hrest : NoDigit rest) :
    fraction ('.' :: padded width n ++ rest) = some (10 ^ (9 - width) * n, rest) := by
  have hlength := length_padded hwidth hn
  have hpassed : rest.dropWhile Char.isDigit = rest := by
    cases rest with
    | nil => rfl
    | cons c cs => exact List.dropWhile_cons_of_neg (by simp [hrest c rfl])
  have hread : digits 9 (padded width n ++ rest) = some (padded width n, rest) :=
    digits_append padded_ne_nil (fun _ => isDigit_of_mem_padded) (hlength.trans_le hnine)
      (.inr hrest)
  rw [List.cons_append, fraction, bind_of_some get_apply]
  refine (bind_of_some set_apply _).trans ?_
  rw [bind_of_some hread, bind_of_some (modify_apply _), hpassed, hlength, Nat.ofDigitChars_append,
    ofDigitChars_padded, Nat.ofDigitChars_replicate_zero]
  rfl

/-- There is no fraction without a point. -/
private theorem fraction_of_ne (hpoint : c ≠ '.') : fraction (c :: cs) = some (0, c :: cs) := by
  rw [fraction, bind_of_some get_apply]
  change _ = (pure 0 : Scan ℕ) (c :: cs)
  refine congrFun ?_ (c :: cs)
  split
  · next heq => exact absurd (List.cons.inj heq).1 hpoint
  · rfl

/-- The part below one second is read up to what is neither a digit nor a point. -/
theorem fraction_fractionChars {nanos : ℕ} (hnanos : nanos < 1000000000)
    (hdigit : c.isDigit = false) (hpoint : c ≠ '.') :
    fraction (fractionChars nanos ++ c :: cs) = some (nanos, c :: cs) := by
  have hrest : NoDigit (c :: cs) := noDigit_cons hdigit
  unfold fractionChars
  split_ifs with hzero hmilli hmicro
  · rw [hzero, List.nil_append, fraction_of_ne hpoint]
  · rw [fraction_padded (by decide) (by decide) (by omega) hrest]
    congr 2
    omega
  · rw [fraction_padded (by decide) (by decide) (by omega) hrest]
    congr 2
    omega
  · rw [fraction_padded (by decide) (by decide) (by omega) hrest]
    congr 2
    omega

end Fraction

/-- The letter at the end stands for UTC. -/
theorem offset_utc : offset ('Z' :: cs) = some (0, cs) := by
  rw [offset, bind_of_some get_apply, if_neg (by simp)]
  rfl

/-- The second that is written is 60 in a leap second only. -/
private theorem second_written (t : Time) {shown : ℕ}
    (hshown : shown = if 1000000000 ≤ t.nanos then t.civil.second + 1 else t.civil.second) :
    shown < 100 ∧ (if shown = 60 then 59 else shown) = t.civil.second ∧
      (if shown = 60 then t.nanos % 1000000000 + 1000000000 else t.nanos % 1000000000) =
        t.nanos := by
  obtain ⟨-, -, -, -, -, hsecond⟩ := t.valid_civil
  have hnanos := t.nanos_lt
  by_cases hleap : 1000000000 ≤ t.nanos
  · rw [if_pos hleap, second_civil_of_le_nanos hleap] at hshown
    rw [if_pos hshown, if_pos hshown, second_civil_of_le_nanos hleap]
    omega
  · rw [if_neg hleap] at hshown
    rw [if_neg (by omega), if_neg (by omega)]
    omega

/-- All parts of the exact text are read one after the other. -/
theorem time_exactChars (t : Time) : time t.exactChars = some (t, []) := by
  obtain ⟨-, -, hdate, hhour, hminute, -⟩ := t.valid_civil
  obtain ⟨hmonth, hday⟩ := hdate.month_le_and_day_le
  obtain ⟨shown, hshown⟩ : ∃ shown, shown =
      if 1000000000 ≤ t.nanos then t.civil.second + 1 else t.civil.second := ⟨_, rfl⟩
  obtain ⟨hlt, hsecond, hnanos⟩ := second_written t hshown
  have hpart : t.nanos % 1000000000 < 1000000000 := Nat.mod_lt _ (by decide)
  have htext : t.exactChars = yearChars t.civil.date.year ++ '-' :: (padded 2 t.civil.date.month ++
      '-' :: (padded 2 t.civil.date.day ++ 'T' :: (padded 2 t.civil.hour ++ ':' ::
        (padded 2 t.civil.minute ++ ':' :: (padded 2 shown ++
          (fractionChars (t.nanos % 1000000000) ++ ['Z'])))))) := by
    simp only [exactChars, civilChars, List.append_assoc, List.cons_append, hshown]
  rw [htext, time, bind_of_some (year_yearChars _ (noDigit_cons (by decide))),
    bind_of_some (separator_cons (by decide)), bind_of_some (field_padded (by omega)),
    bind_of_some (separator_cons (by decide)), bind_of_some (field_padded (by omega)),
    bind_of_some char_cons, bind_of_some (guard_of (by decide)),
    bind_of_some (field_padded (by omega)),
    bind_of_some (separator_cons (by decide)), bind_of_some (field_padded (by omega)),
    bind_of_some (separator_cons (by decide)), bind_of_some (field_padded hlt),
    bind_of_some (fraction_fractionChars hpart (by decide) (by decide)),
    bind_of_some (blanks_cons (by decide)), bind_of_some offset_utc]
  simp only [hsecond, hnanos]
  rw [bind_of_some (guard_of t.valid_civil)]
  change (liftM (new? (t.civil.seconds - 0) t.nanos) : Scan Time) [] = _
  rw [seconds_civil, sub_zero, new?_seconds_nanos]
  rfl

end Scan

/-- The exact text of a time is read as that time. -/
theorem read?_exactText (t : Time) : read? t.exactText = some t := by
  rw [read?, exactText, String.toList_ofList, readChars?, Scan.time_exactChars]
  rfl

/-- The form of a time is read as that time. -/
theorem ofJson_toJson (t : Time) : ofJson t.toJson = .ok t := by
  rw [ofJson, toJson, Json.string?, Option.bind_some, read?_exactText, Json.expect]

end SignedPrefixes.Time
