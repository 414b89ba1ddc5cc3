import SignedPrefixes.Asn
import SignedPrefixes.Proofs.Text.Boundary
import SignedPrefixes.Proofs.Text.Numeral

/-!
# The text of AS numbers

The text of an AS number is a numeral of 32 bits, in front of which may stand the two letters.
Whether they do is looked up in the first two octets. Where these end inside a character, there
is nothing to look at and reading stops, which is not an error that a caller expects. All other
texts are either read as what they say or are an error.
-/

namespace SignedPrefixes.Asn

open Numeral Text

variable {cs : List Char} {asn : Asn} {n : ℕ}

/-- What is left of a text without the two letters. In a text of two octets they are not looked
for. -/
def numberPart (cs : List Char) : List Char :=
  match cs with
  | a :: s :: rest =>
    if 2 < byteCount cs ∧ a.toLower = 'a' ∧ s.toLower = 's' then rest else cs
  | _ => cs

/-- The text is one of an AS number. -/
def IsText (text : String) (asn : Asn) : Prop :=
  IsNumeral (numberPart text.toList) asn.number.toNat

/-- A number is read from a numeral for it. -/
theorem readNumber_eq_ok_iff : readNumber cs = .ok asn ↔ IsNumeral cs asn.number.toNat := by
  have hsize : asn.number.toNat ≤ UInt32.size - 1 :=
    Nat.le_sub_one_of_lt (UInt32.toNat_lt_size asn.number)
  rw [← and_iff_left (a := IsNumeral cs _) hsize, ← read_eq_ok_iff, readNumber]
  cases hread : Numeral.read (UInt32.size - 1) cs with
  | error fault => exact ⟨nofun, nofun⟩
  | ok n =>
    have hlt : n < UInt32.size := Nat.lt_of_le_pred (by decide) (read_eq_ok_iff.mp hread).2
    have hvalue : (UInt32.ofNat n).toNat = n := UInt32.toNat_ofNat_of_lt hlt
    constructor
    · rintro ⟨⟩
      exact congrArg Except.ok hvalue.symm
    · rintro ⟨⟩
      exact congrArg (Except.ok ∘ mk) UInt32.ofNat_toNat

/-- Reading a number never stops inside of a character. -/
theorem readNumber_ne_splitsCharacter : readNumber cs ≠ .error .splitsCharacter := by
  unfold readNumber
  split <;> nofun

section Ascii

/-- A digit takes one byte. -/
private theorem utf8Size_of_isDigit {c : Char} (h : c.isDigit = true) : c.utf8Size = 1 := by
  obtain ⟨-, hle⟩ := Char.isDigit_iff_toNat.mp h
  rw [Char.utf8Size_eq_one_iff, UInt32.le_iff_toNat_le]
  exact hle.trans (by decide)

/-- A letter with a small form below 128 takes one byte, as no other letter has such a form. -/
private theorem utf8Size_of_toLower {c d : Char} (hd : d.val ≤ 127) (h : c.toLower = d) :
    c.utf8Size = 1 := by
  rw [Char.utf8Size_eq_one_iff, UInt32.le_iff_toNat_le]
  unfold Char.toLower at h
  split at h
  · next hupper => exact (UInt32.le_iff_toNat_le.mp hupper.2).trans (by decide)
  · subst h
    exact UInt32.le_iff_toNat_le.mp hd

/-- The two letters take one byte each, small or large. -/
private theorem utf8Size_of_letters {a s : Char} (ha : a.toLower = 'a') (hs : s.toLower = 's') :
    ∀ c ∈ [a, s], c.utf8Size = 1 := by
  simp [utf8Size_of_toLower (by decide) ha, utf8Size_of_toLower (by decide) hs]

/-- The characters of a numeral take one byte each. -/
private theorem utf8Size_of_isNumeral (h : IsNumeral cs n) : ∀ c ∈ cs, c.utf8Size = 1 := by
  obtain ⟨digits, htext, -, hdigits, -⟩ := h
  intro c hc
  rcases htext with rfl | rfl
  · exact utf8Size_of_isDigit (hdigits c hc)
  · rcases List.mem_cons.mp hc with rfl | hc
    · decide
    · exact utf8Size_of_isDigit (hdigits c hc)

end Ascii

/-- The two letters are what a cut after two octets leaves in front. -/
theorem numberPart_of_cut {letters rest : List Char} (hlong : 2 < byteCount cs)
    (hcut : cutBytes? 2 cs = some (letters, rest)) :
    numberPart cs = if letters.map Char.toLower = ['a', 's'] then rest else cs := by
  by_cases hletters : letters.map Char.toLower = ['a', 's']
  · obtain ⟨a, s, rfl, ha, hs⟩ :
        ∃ a s, letters = [a, s] ∧ a.toLower = 'a' ∧ s.toLower = 's' := by
      simpa [List.map_eq_cons_iff, eq_comm, and_assoc] using hletters
    obtain ⟨rfl, -⟩ := cutBytes?_eq_some_iff.mp hcut
    rw [if_pos hletters]
    exact if_pos ⟨hlong, ha, hs⟩
  · rw [if_neg hletters]
    unfold numberPart
    split
    · next a s rest' =>
      refine if_neg fun ⟨_, ha, hs⟩ => ?_
      have hcut' : cutBytes? 2 (a :: s :: rest') = some ([a, s], rest') :=
        cutBytes?_append (utf8Size_of_letters ha hs) rest'
      obtain ⟨rfl, -⟩ := Prod.mk.inj (Option.some.inj (hcut.symm.trans hcut'))
      exact hletters (by simp [ha, hs])
    · rfl

/-- Reading stops where the first two octets end inside a character, and otherwise reads the
number. -/
theorem readChars_eq (cs : List Char) :
    readChars cs =
      if 2 < byteCount cs ∧ cutBytes? 2 cs = none then .error .splitsCharacter
      else readNumber (numberPart cs) := by
  unfold readChars
  by_cases hlong : 2 < byteCount cs
  · rw [if_pos hlong]
    cases hcut : cutBytes? 2 cs with
    | none => rw [if_pos ⟨hlong, rfl⟩]
    | some parts =>
      obtain ⟨letters, rest⟩ := parts
      rw [if_neg fun h => Option.some_ne_none _ h.2, numberPart_of_cut hlong hcut]
      exact (apply_ite readNumber _ _ _).symm
  · have hsame : numberPart cs = cs := by
      unfold numberPart
      split
      · exact if_neg fun h => hlong h.1
      · rfl
    rw [if_neg hlong, if_neg fun h => hlong h.1, hsame]

/-- The first two octets of a text of an AS number do not end inside a character. -/
theorem cutBytes?_ne_none_of_isNumeral (h : IsNumeral (numberPart cs) n)
    (hlong : 2 < byteCount cs) : cutBytes? 2 cs ≠ none := by
  have hascii : ∀ c ∈ cs.take 2, c.utf8Size = 1 := by
    unfold numberPart at h
    split at h
    · split_ifs at h with hletters
      · exact utf8Size_of_letters hletters.2.1 hletters.2.2
      · exact fun c hc => utf8Size_of_isNumeral h c (List.mem_of_mem_take hc)
    · exact fun c hc => utf8Size_of_isNumeral h c (List.mem_of_mem_take hc)
  have hcut := cutBytes?_append hascii (cs.drop 2)
  rw [List.take_append_drop] at hcut
  by_cases hlength : 2 ≤ cs.length
  · rw [List.length_take_of_le hlength] at hcut
    rw [hcut]
    exact Option.some_ne_none _
  · rw [List.take_of_length_le (by omega)] at hascii
    rw [byteCount_eq_length hascii] at hlong
    omega

/-- What is written for an AS number is read as that number. -/
theorem readChars_chars (asn : Asn) : readChars asn.chars = .ok asn := by
  have hpos := Nat.length_toDigits_pos (b := 10) (n := asn.number.toNat)
  have hnumeral : IsNumeral (Nat.toDigits 10 asn.number.toNat) asn.number.toNat :=
    (read_eq_ok_iff.mp (read_toDigits le_rfl)).1
  have hcount : 2 < byteCount asn.chars := by
    have hdigits := byteCount_eq_length (utf8Size_of_isNumeral hnumeral)
    change 2 < 1 + (1 + byteCount (Nat.toDigits 10 asn.number.toNat))
    omega
  have hpart : numberPart asn.chars = Nat.toDigits 10 asn.number.toNat :=
    if_pos ⟨hcount, by decide, by decide⟩
  rw [readChars_eq, if_neg fun h => cutBytes?_ne_none_of_isNumeral (hpart ▸ hnumeral) h.1 h.2,
    hpart, readNumber_eq_ok_iff]
  exact hnumeral

/-- Reading a text of an AS number gives that number, and no other text gives one. It stops
exactly if the text is longer than two octets and has no character boundary after them. All
other texts are an error with its wording. -/
theorem read_decided (text : String) :
    (∀ asn, read text = .ok asn ↔ IsText text asn) ∧
    (read text = .error .splitsCharacter ↔
      2 < text.utf8ByteSize ∧ ¬(⟨2⟩ : String.Pos.Raw).IsValid text) ∧
    (read text = .error .invalid ↔
      (∀ asn, ¬IsText text asn) ∧
        (text.utf8ByteSize ≤ 2 ∨ (⟨2⟩ : String.Pos.Raw).IsValid text)) ∧
    TextError.invalid.message? = some "invalid AS number" ∧
    TextError.splitsCharacter.message? = none := by
  have hstops : 2 < text.utf8ByteSize ∧ ¬(⟨2⟩ : String.Pos.Raw).IsValid text ↔
      2 < byteCount text.toList ∧ cutBytes? 2 text.toList = none := by
    rw [byteCount_toList, cutBytes?_toList_eq_none_iff]
  have hok (asn : Asn) : read text = .ok asn ↔ IsText text asn := by
    rw [read, readChars_eq, IsText]
    split_ifs with hsplit
    · exact ⟨nofun, fun h => absurd hsplit.2 (cutBytes?_ne_none_of_isNumeral h hsplit.1)⟩
    · exact readNumber_eq_ok_iff
  have hstop : read text = .error .splitsCharacter ↔
      2 < text.utf8ByteSize ∧ ¬(⟨2⟩ : String.Pos.Raw).IsValid text := by
    rw [read, readChars_eq, hstops]
    split_ifs with hsplit
    · exact iff_of_true rfl hsplit
    · exact iff_of_false readNumber_ne_splitsCharacter hsplit
  refine ⟨hok, hstop, ?_, rfl, rfl⟩
  have hboundary : (text.utf8ByteSize ≤ 2 ∨ (⟨2⟩ : String.Pos.Raw).IsValid text) ↔
      ¬(2 < text.utf8ByteSize ∧ ¬(⟨2⟩ : String.Pos.Raw).IsValid text) := by
    rw [not_and_not_right, ← not_lt, imp_iff_not_or]
  rw [hboundary, ← hstop]
  simp only [← hok]
  cases read text with
  | ok asn => exact ⟨nofun, fun h => absurd rfl (h.1 asn)⟩
  | error e => cases e <;> simp

/-- A letter and a character of two octets say no AS number, but reading them stops between the
octets of the character and is not the error that it should be. -/
theorem read_stops_inside_character :
    (∀ asn, ¬IsText "aé" asn) ∧ read "aé" = .error .splitsCharacter ∧
      read "aé" ≠ .error .invalid := by
  have hread : read "aé" = .error .splitsCharacter := by decide
  refine ⟨fun asn => ?_, hread, by rw [hread]; decide⟩
  rw [IsText, ← readNumber_eq_ok_iff]
  have hnumber : readNumber (numberPart "aé".toList) = .error .invalid := by decide
  rw [hnumber]
  nofun

end SignedPrefixes.Asn
