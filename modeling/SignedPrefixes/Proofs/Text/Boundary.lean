import Mathlib
import SignedPrefixes.Text

/-!
# Cuts at character boundaries

A text can be cut after a number of octets exactly if a character starts or the text ends there.
A text of ASCII characters can be cut after each of its characters.
-/

namespace SignedPrefixes.Text

variable {n : ℕ} {cs : List Char}

/-- The octets of a text are counted as they are stored. -/
theorem byteCount_toList (s : String) : byteCount s.toList = s.utf8ByteSize := by
  have hcount (cs : List Char) : (String.ofList cs).utf8ByteSize = byteCount cs := by
    induction cs with
    | nil => rfl
    | cons c cs ih =>
      rw [String.ofList_cons, String.utf8ByteSize_append, String.utf8ByteSize_singleton, ih,
        byteCount]
  rw [← hcount, String.ofList_toList]

/-- A text can be cut at the character boundaries only. -/
theorem cutBytes?_toList_eq_none_iff (n : ℕ) (s : String) :
    cutBytes? n s.toList = none ↔ ¬(⟨n⟩ : String.Pos.Raw).IsValid s := by
  rw [Option.eq_none_iff_forall_ne_some, ← not_exists_not]
  refine not_congr ?_
  simp only [ne_eq, not_not, Prod.exists, cutBytes?_eq_some_iff]
  rw [String.Pos.Raw.isValid_iff_exists_append]
  constructor
  · rintro ⟨front, rest, hsplit, hcount⟩
    refine ⟨String.ofList front, String.ofList rest, ?_, ?_⟩
    · rw [← String.ofList_append, ← hsplit, String.ofList_toList]
    · rw [String.Pos.Raw.ext_iff, String.byteIdx_rawEndPos, ← byteCount_toList,
        String.toList_ofList, hcount]
  · rintro ⟨front, rest, rfl, hn⟩
    rw [String.Pos.Raw.ext_iff, String.byteIdx_rawEndPos] at hn
    exact ⟨front.toList, rest.toList, String.toList_append, (byteCount_toList front).trans hn.symm⟩

/-- An ASCII text has as many octets as characters. -/
theorem byteCount_eq_length (h : ∀ c ∈ cs, c.utf8Size = 1) : byteCount cs = cs.length := by
  induction cs with
  | nil => rfl
  | cons c cs ih =>
    rw [byteCount, h c List.mem_cons_self, ih fun d hd => h d (List.mem_cons_of_mem c hd),
      List.length_cons, Nat.add_comm]

/-- A text can be cut after any of the ASCII characters that it starts with. -/
theorem cutBytes?_append {front : List Char} (h : ∀ c ∈ front, c.utf8Size = 1)
    (rest : List Char) : cutBytes? front.length (front ++ rest) = some (front, rest) :=
  cutBytes?_eq_some_iff.mpr ⟨rfl, byteCount_eq_length h⟩

end SignedPrefixes.Text
