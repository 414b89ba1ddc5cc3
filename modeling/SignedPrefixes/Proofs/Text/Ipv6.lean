import SignedPrefixes.Proofs.Text.Ipv4
import SignedPrefixes.Proofs.Text.ZeroRun

/-!
# The text of IPv6 addresses

An IPv6 address has one text by the rules of the format: the dotted form if it stands for an
IPv4 address, and otherwise its groups with a double colon for the first longest run of at least
two zero groups. This is what is written, and it is read as that address.
-/

namespace SignedPrefixes.Ipv6

open Text

variable {gs : List ℕ} {cs : List Char} {n : ℕ}

section Groups

/-- A group has 16 bits. -/
theorem lt_of_mem_groups (a : Ipv6) : ∀ g ∈ a.groups, g < 65536 :=
  Positional.digits_lt (by decide) 8 a.bits.toNat

/-- There are eight groups. -/
theorem length_groups (a : Ipv6) : a.groups.length = 8 := Positional.length_digits 65536 8 _

/-- The eight groups are the address. -/
theorem ofGroups_groups (a : Ipv6) : ofGroups a.groups = a := by
  have hlt : a.bits.toNat < 65536 ^ 8 := a.bits.isLt
  rw [ofGroups, groups, Positional.value_digits, Nat.mod_eq_of_lt hlt, BitVec.ofNat_toNat,
    BitVec.setWidth_eq]

/-- The last two groups are those of the IPv4 address that an address may stand for. -/
theorem drop_groups (a : Ipv6) :
    a.groups.drop 6 = Positional.digits 65536 2 a.lastIpv4.bits.toNat := by
  have hlast : a.lastIpv4.bits.toNat = a.bits.toNat % 65536 ^ 2 := BitVec.toNat_setWidth 32 a.bits
  rw [hlast, Positional.digits_mod (by decide)]
  exact Positional.drop_digits 65536 6 2 _

end Groups

section Digits

/-- A hexadecimal digit is read as it is written. -/
private theorem hexDigit?_digitChar : ∀ d < 16, hexDigit? (Nat.digitChar d) = some d := by decide

/-- No digit is one of the separators. -/
private theorem digitChar_ne {d : Char} (hd : d ∈ [':', '.', '/']) : Nat.digitChar n ≠ d := by
  simp only [List.mem_cons, List.not_mem_nil, or_false] at hd
  rcases hd with rfl | rfl | rfl <;> exact Nat.digitChar_ne _ rfl

/-- The digits of a group are none of the signs that stand between groups or after them. -/
theorem ne_of_mem_toDigits {c d : Char} (hc : c ∈ Nat.toDigits 16 n) (hd : d ∈ [':', '.', '/']) :
    c ≠ d := by
  induction n using Nat.strongRecOn with
  | ind n ih =>
    rw [Nat.toDigits_eq_if (by decide)] at hc
    split_ifs at hc with hlt
    · obtain rfl := List.mem_singleton.mp hc
      exact digitChar_ne hd
    · rcases List.mem_append.mp hc with hc | hc
      · exact ih (n / 16) (Nat.div_lt_self (by omega) (by decide)) hc
      · obtain rfl := List.mem_singleton.mp hc
        exact digitChar_ne hd

/-- The digits of a group have its value. -/
theorem map_value_toDigits (n : ℕ) :
    ((Nat.toDigits 16 n).mapM hexDigit?).map (Positional.value 16) = some n := by
  induction n using Nat.strongRecOn with
  | ind n ih =>
    rw [Nat.toDigits_eq_if (by decide)]
    split_ifs with hlt
    · rw [List.mapM_cons, hexDigit?_digitChar n hlt]
      simp [Positional.value]
    · obtain ⟨ds, hds, hvalue⟩ := Option.map_eq_some_iff.mp
        (ih (n / 16) (Nat.div_lt_self (by omega) (by decide)))
      rw [List.mapM_append, hds, List.mapM_cons,
        hexDigit?_digitChar (n % 16) (Nat.mod_lt n (by decide))]
      change some (Positional.value 16 (ds ++ [n % 16])) = some n
      rw [Positional.value_append_singleton, hvalue, Nat.div_add_mod']

/-- The text of a group is read as that group. -/
theorem readGroup?_toDigits (h : n < 65536) : readGroup? (Nat.toDigits 16 n) = some n := by
  have hlength : (Nat.toDigits 16 n).length ≤ 4 :=
    (Nat.length_toDigits_le_iff (by decide) (by decide)).mpr h
  rw [readGroup?, if_pos ⟨Nat.toDigits_ne_nil, hlength⟩, map_value_toDigits]

end Digits

section Lists

/-- There are neither points nor slashes in written groups. -/
theorem ne_of_mem_groupChars {d : Char} (hd : d ∈ ['.', '/']) : ∀ c ∈ groupChars gs, c ≠ d := by
  refine forall_mem_intercalate ?_ fun part hpart c hc => ?_
  · rintro rfl
    exact absurd hd (by decide)
  · obtain ⟨g, -, rfl⟩ := List.mem_map.mp hpart
    exact ne_of_mem_toDigits hc (List.mem_cons_of_mem ':' hd)

/-- Written groups fall apart at the colons into their numbers. -/
theorem splitOn_groupChars (hne : gs ≠ []) :
    (groupChars gs).splitOn ':' = gs.map (Nat.toDigits 16) := by
  refine List.splitOn_intercalate ':' (fun part hpart hcolon => ?_) (by simpa using hne)
  obtain ⟨g, -, rfl⟩ := List.mem_map.mp hpart
  exact ne_of_mem_toDigits hcolon List.mem_cons_self rfl

/-- Groups that are written are read again, also if there are none. -/
theorem readGroups?_groupChars (h : ∀ g ∈ gs, g < 65536) :
    readGroups? (groupChars gs) = some gs := by
  by_cases hne : gs = []
  · subst hne
    rfl
  · have hsplit := splitOn_groupChars hne
    have hchars : groupChars gs ≠ [] := by
      intro hempty
      rw [hempty, List.splitOn_nil] at hsplit
      obtain ⟨g, -, hg⟩ := List.mem_map.mp (hsplit ▸ List.mem_singleton_self ([] : List Char))
      exact Nat.toDigits_ne_nil hg
    rw [readGroups?, if_neg hchars, hsplit]
    exact mapM_map_eq_pure fun g hg => readGroup?_toDigits (h g hg)

/-- An end without dots consists of groups. -/
theorem readTail?_of_notMem (h : '.' ∉ cs) : readTail? cs = readGroups? cs := by
  unfold readTail?
  dsimp only
  split
  · next last hlast =>
    have hdot : last.contains '.' = false := by
      rw [← Bool.not_eq_true, List.contains_iff_mem]
      exact fun hmem => h (mem_of_mem_splitOn (List.mem_of_getLast? hlast) hmem)
    rw [hdot]
    rfl
  · next hnone => exact absurd (List.getLast?_eq_none_iff.mp hnone) (List.splitOn_ne_nil ':' cs)

/-- Written groups are read as the groups. -/
theorem readTail?_groupChars (h : ∀ g ∈ gs, g < 65536) :
    readTail? (groupChars gs) = some gs := by
  have hdot : '.' ∉ groupChars gs := fun hmem =>
    ne_of_mem_groupChars (List.mem_cons_self (l := ['/'])) '.' hmem rfl
  rw [readTail?_of_notMem hdot, readGroups?_groupChars h]

/-- An IPv4 address after a group is read as two groups. -/
theorem readTail?_dotted {g : ℕ} (h : g < 65536) (v4 : Ipv4) :
    readTail? (Nat.toDigits 16 g ++ ':' :: v4.chars) =
      some (g :: Positional.digits 65536 2 v4.bits.toNat) := by
  have hcolon (c : Char) (hc : c ∈ v4.chars) : c ≠ ':' := by
    rintro rfl
    exact absurd (v4.chars_subset _ hc) (by decide)
  have hgroup : ':' ∉ Nat.toDigits 16 g := fun hc => ne_of_mem_toDigits hc List.mem_cons_self rfl
  have hsplit : (Nat.toDigits 16 g ++ ':' :: v4.chars).splitOn ':' =
      [Nat.toDigits 16 g, v4.chars] := by
    rw [List.splitOn_append_cons_self_of_not_mem hgroup,
      List.splitOn_eq_singleton fun hc => hcolon _ hc rfl]
  have hdotted : v4.chars.contains '.' = true := by
    by_contra hnone
    have hone : v4.chars.splitOn '.' = [v4.chars] :=
      List.splitOn_eq_singleton fun hc => hnone (List.contains_iff_mem.mpr hc)
    have hfour := congrArg List.length (hone.symm.trans v4.splitOn_chars)
    simp [Ipv4.octets] at hfour
  unfold readTail?
  dsimp only
  rw [hsplit]
  simp only [List.getLast?_cons_cons, List.getLast?_singleton, hdotted, if_true,
    List.dropLast_cons_cons, List.dropLast_singleton, List.mapM_cons, readGroup?_toDigits h,
    Ipv4.read?_chars]
  rfl

end Lists

section DoubleColon

/-- A character that does not start a double colon stands before the next one. -/
theorem cutDoubleColon?_cons {c : Char} (h : c ≠ ':' ∨ cs.head? ≠ some ':') :
    cutDoubleColon? (c :: cs) =
      (cutDoubleColon? cs).map fun (front, rest) => (c :: front, rest) := by
  rw [cutDoubleColon?.eq_def]
  split
  · contradiction
  · next heq =>
    obtain ⟨rfl, rfl⟩ := List.cons.inj heq
    exact absurd h (by simp)
  · next heq =>
    obtain ⟨rfl, rfl⟩ := List.cons.inj heq
    rfl

/-- A front without a colon is not where a double colon is cut. -/
theorem cutDoubleColon?_append {front : List Char} (h : ':' ∉ front) (rest : List Char) :
    cutDoubleColon? (front ++ rest) =
      (cutDoubleColon? rest).map fun (before, after) => (front ++ before, after) := by
  induction front with
  | nil => simp
  | cons c front ih =>
    rw [List.mem_cons, not_or] at h
    rw [List.cons_append, cutDoubleColon?_cons (Or.inl (Ne.symm h.1)), ih h.2, Option.map_map]
    rfl

/-- Written groups do not start with a colon. -/
private theorem head?_groupChars_append (g : ℕ) (rest : List Char) :
    (groupChars (g :: gs) ++ rest).head? ≠ some ':' := by
  obtain ⟨more, hmore⟩ : ∃ more, groupChars (g :: gs) = Nat.toDigits 16 g ++ more := by
    cases gs with
    | nil => exact ⟨[], by simp [groupChars]⟩
    | cons next gs => exact ⟨_, by simp [groupChars, List.intercalate_cons_cons]; rfl⟩
  rw [hmore, List.append_assoc, List.head?_append_of_ne_nil _ Nat.toDigits_ne_nil]
  exact fun hhead => ne_of_mem_toDigits (List.mem_of_head? hhead) List.mem_cons_self rfl

/-- There is no double colon in groups, nor does one start at their end. -/
theorem cutDoubleColon?_groupChars (gs : List ℕ) (rest : List Char) :
    cutDoubleColon? (groupChars gs ++ rest) =
      (cutDoubleColon? rest).map fun (before, after) => (groupChars gs ++ before, after) := by
  have hcolon (g : ℕ) : ':' ∉ Nat.toDigits 16 g := fun hc =>
    ne_of_mem_toDigits hc List.mem_cons_self rfl
  induction gs with
  | nil => simp [groupChars]
  | cons g gs ih =>
    cases gs with
    | nil =>
      have hone : groupChars [g] = Nat.toDigits 16 g := List.intercalate_singleton
      rw [hone, cutDoubleColon?_append (hcolon g)]
    | cons next gs =>
      have hmore : groupChars (g :: next :: gs) =
          Nat.toDigits 16 g ++ ':' :: groupChars (next :: gs) := by
        simp [groupChars, List.intercalate_cons_cons]
      rw [hmore, List.append_assoc, List.cons_append, cutDoubleColon?_append (hcolon g),
        cutDoubleColon?_cons (Or.inr (head?_groupChars_append next rest)), ih, Option.map_map,
        Option.map_map]
      congr 1
      funext parts
      simp

/-- There is no double colon in written groups. -/
theorem cutDoubleColon?_groupChars_eq_none (gs : List ℕ) :
    cutDoubleColon? (groupChars gs) = none := by
  simpa [cutDoubleColon?] using cutDoubleColon?_groupChars gs []

/-- The first double colon after groups is the one that ends them. -/
theorem cutDoubleColon?_groupChars_eq_some (gs : List ℕ) (rest : List Char) :
    cutDoubleColon? (groupChars gs ++ ':' :: ':' :: rest) = some (groupChars gs, rest) := by
  simpa [cutDoubleColon?] using cutDoubleColon?_groupChars gs (':' :: ':' :: rest)

end DoubleColon

section Format

/-- The rules for the text of an address. Groups are written in lower-case hexadecimal without
leading zeros. -/
inductive IsText (a : Ipv6) : List Char → Prop where
  /-- An address that stands for an IPv4 address has the dotted form. -/
  | dotted (hmapped : a.groups.take 6 = [0, 0, 0, 0, 0, 0xffff]) :
      IsText a ("::ffff:".toList ++ a.lastIpv4.chars)
  /-- In any other address a double colon stands for the first longest run of at least two
  zero groups. -/
  | shortened {start length : ℕ} (hmapped : a.groups.take 6 ≠ [0, 0, 0, 0, 0, 0xffff])
      (hrun : IsFirstLongestZeroRun a.groups start length) (hlong : 2 ≤ length) :
      IsText a (groupChars (a.groups.take start) ++
        ':' :: ':' :: groupChars (a.groups.drop (start + length)))
  /-- If there is no such run, all groups are written. -/
  | full (hmapped : a.groups.take 6 ≠ [0, 0, 0, 0, 0, 0xffff])
      (hshort : ∀ start, ¬IsZeroRun a.groups start 2) : IsText a (groupChars a.groups)

/-- A mapped address is told by its first six groups. -/
theorem isIpv4Mapped_iff {a : Ipv6} :
    a.isIpv4Mapped = true ↔ a.groups.take 6 = [0, 0, 0, 0, 0, 0xffff] := beq_iff_eq

/-- The rules leave no choice, and what is written follows them. -/
theorem isText_iff {a : Ipv6} : IsText a cs ↔ cs = a.chars := by
  have hsearch := isFirstLongestZeroRun_longestZeroRun a.groups
  constructor
  · intro h
    unfold chars
    cases h with
    | dotted hmapped => rw [if_pos (isIpv4Mapped_iff.mpr hmapped)]
    | shortened hmapped hrun hlong =>
      obtain ⟨rfl, rfl⟩ := hrun.unique hsearch
      rw [if_neg (mt isIpv4Mapped_iff.mp hmapped)]
      dsimp only
      rw [if_pos (Nat.lt_of_succ_le hlong)]
    | full hmapped hshort =>
      rw [if_neg (mt isIpv4Mapped_iff.mp hmapped)]
      dsimp only
      rw [if_neg fun hlong => hshort _ fun i hi => hsearch.isZeroRun i (hi.trans_le (by omega))]
  · rintro rfl
    unfold chars
    by_cases hmapped : a.groups.take 6 = [0, 0, 0, 0, 0, 0xffff]
    · rw [if_pos (isIpv4Mapped_iff.mpr hmapped)]
      exact .dotted hmapped
    · rw [if_neg (mt isIpv4Mapped_iff.mp hmapped)]
      dsimp only
      split_ifs with hlong
      · exact .shortened hmapped hsearch hlong
      · exact .full hmapped fun start h => hlong (Nat.lt_of_succ_le (hsearch.le_length h))

/-- A mapped address is read from its dotted form. -/
private theorem read?_dotted {a : Ipv6} (hmapped : a.groups.take 6 = [0, 0, 0, 0, 0, 0xffff]) :
    read? ("::ffff:".toList ++ a.lastIpv4.chars) = some a := by
  have hread : read? ("::ffff:".toList ++ a.lastIpv4.chars) =
      (readTail? (Nat.toDigits 16 0xffff ++ ':' :: a.lastIpv4.chars)).bind fun tail =>
        if 0 + tail.length ≤ 7 then
          some (ofGroups ([] ++ List.replicate (8 - (0 + tail.length)) 0 ++ tail))
        else none := rfl
  have hlength : (a.groups.drop 6).length = 2 := by rw [List.length_drop, length_groups]
  have hall : List.replicate 5 0 ++ 0xffff :: a.groups.drop 6 = a.groups := by
    have hsplit := List.take_append_drop 6 a.groups
    rw [hmapped] at hsplit
    exact hsplit
  rw [hread, readTail?_dotted (by decide), ← drop_groups, Option.bind_some, List.length_cons,
    hlength, if_pos (by decide)]
  exact congrArg some ((congrArg ofGroups hall).trans a.ofGroups_groups)

/-- An address is read from its form without a run of zeros. -/
private theorem read?_shortened {a : Ipv6} {start length : ℕ}
    (hrun : IsZeroRun a.groups start length) (hlong : 2 ≤ length) :
    read? (groupChars (a.groups.take start) ++
      ':' :: ':' :: groupChars (a.groups.drop (start + length))) = some a := by
  have hle := hrun.add_le (by omega)
  have hall := hrun.take_append_drop hle
  rw [length_groups] at hle
  have hfront := readGroups?_groupChars fun g hg =>
    a.lt_of_mem_groups g (List.mem_of_mem_take (i := start) hg)
  have hrest := readTail?_groupChars fun g hg =>
    a.lt_of_mem_groups g (List.mem_of_mem_drop (i := start + length) hg)
  have hfrontLength : (a.groups.take start).length = start := by
    rw [List.length_take, length_groups]
    omega
  have hrestLength : (a.groups.drop (start + length)).length = 8 - (start + length) := by
    rw [List.length_drop, length_groups]
  have hfill : 8 - (start + (8 - (start + length))) = length := by omega
  unfold read?
  rw [cutDoubleColon?_groupChars_eq_some]
  dsimp only
  rw [hfront, hrest]
  simp only [Option.bind_eq_bind, Option.bind_some, hfrontLength, hrestLength, hfill]
  rw [if_pos (by omega), hall, ofGroups_groups]

/-- An address is read from all of its groups. -/
private theorem read?_full (a : Ipv6) : read? (groupChars a.groups) = some a := by
  unfold read?
  rw [cutDoubleColon?_groupChars_eq_none]
  change (readTail? _).bind _ = _
  rw [readTail?_groupChars a.lt_of_mem_groups, Option.bind_some, if_pos a.length_groups,
    ofGroups_groups]

/-- What is written for an address is read as that address. -/
theorem read?_chars (a : Ipv6) : read? a.chars = some a := by
  have htext : IsText a a.chars := isText_iff.mpr rfl
  generalize a.chars = cs at htext
  cases htext with
  | dotted hmapped => exact read?_dotted hmapped
  | shortened _ hrun hlong => exact read?_shortened hrun.isZeroRun hlong
  | full _ _ => exact read?_full a

/-- The text of an address has a colon, which no IPv4 address has. -/
theorem colon_mem_chars (a : Ipv6) : ':' ∈ a.chars := by
  have htext : IsText a a.chars := isText_iff.mpr rfl
  generalize a.chars = cs at htext
  cases htext with
  | dotted _ => simp
  | shortened _ _ _ => simp
  | full _ _ =>
    by_contra hnone
    have hne : a.groups ≠ [] := List.ne_nil_of_length_eq_add_one a.length_groups
    have hone := splitOn_groupChars hne
    rw [List.splitOn_eq_singleton hnone] at hone
    have hlength := congrArg List.length hone
    rw [List.length_map, length_groups, List.length_singleton] at hlength
    exact absurd hlength (by decide)

/-- The sign that ends an address in the text of a prefix is not in the address. -/
theorem slash_notMem_chars (a : Ipv6) : '/' ∉ a.chars := by
  have hgroups (gs : List ℕ) : '/' ∉ groupChars gs := fun hmem =>
    ne_of_mem_groupChars (by decide : '/' ∈ ['.', '/']) '/' hmem rfl
  have htext : IsText a a.chars := isText_iff.mpr rfl
  generalize a.chars = cs at htext
  cases htext with
  | dotted _ =>
    intro hmem
    rcases List.mem_append.mp hmem with hmem | hmem
    · exact absurd hmem (by decide)
    · exact absurd (a.lastIpv4.chars_subset '/' hmem) (by decide)
  | shortened _ _ _ => simp [hgroups]
  | full _ _ => exact hgroups a.groups

end Format

end SignedPrefixes.Ipv6
