/-!
# Texts as lists of characters

Texts are read and written as lists of characters. Some rules count the octets
that a text takes in UTF-8, so this module measures and cuts a text in octets.
A cut inside a character does not exist.
-/

namespace SignedPrefixes.Text

/-- The number of octets that a text takes in UTF-8. -/
def byteCount : List Char → Nat
  | [] => 0
  | c :: cs => c.utf8Size + byteCount cs

/-- Cuts a text after `n` octets. There is no such cut inside a character or
past the end. -/
def cutBytes? (n : Nat) : List Char → Option (List Char × List Char)
  | [] => if n = 0 then some ([], []) else none
  | c :: cs =>
    if n = 0 then some ([], c :: cs)
    else if c.utf8Size ≤ n then
      (cutBytes? (n - c.utf8Size) cs).map fun (front, rest) => (c :: front, rest)
    else none

/-- Only the empty text takes no bytes. -/
theorem byteCount_eq_zero_iff {cs : List Char} : byteCount cs = 0 ↔ cs = [] := by
  cases cs with
  | nil => exact ⟨fun _ => rfl, fun _ => rfl⟩
  | cons c cs =>
    have hpos := c.utf8Size_pos
    simp only [byteCount, reduceCtorEq, iff_false]
    omega

/-- Nothing is cut off by zero bytes, as every character takes some. -/
theorem cutBytes?_zero_eq_some_iff {cs front rest : List Char} :
    cutBytes? 0 cs = some (front, rest) ↔ cs = front ++ rest ∧ byteCount front = 0 := by
  have hcut : cutBytes? 0 cs = some ([], cs) := by cases cs <;> rfl
  rw [hcut, byteCount_eq_zero_iff, Option.some.injEq, Prod.mk.injEq]
  constructor
  · rintro ⟨rfl, rfl⟩
    exact ⟨rfl, rfl⟩
  · rintro ⟨rfl, rfl⟩
    exact ⟨rfl, rfl⟩

/-- The two parts of a cut make up the text, and the first takes `n` octets. -/
theorem cutBytes?_eq_some_iff {n : Nat} {cs front rest : List Char} :
    cutBytes? n cs = some (front, rest) ↔ cs = front ++ rest ∧ byteCount front = n := by
  induction cs generalizing n front rest with
  | nil =>
    by_cases hn : n = 0
    · exact hn ▸ cutBytes?_zero_eq_some_iff
    · simp only [cutBytes?, hn, ↓reduceIte, reduceCtorEq, false_iff, not_and]
      intro h hcount
      exact hn (hcount ▸ byteCount_eq_zero_iff.mpr (List.append_eq_nil_iff.mp h.symm).1)
  | cons c cs ih =>
    by_cases hn : n = 0
    · exact hn ▸ cutBytes?_zero_eq_some_iff
    · -- There is no empty first part, so the cut is one of the other characters.
      have hcut : cutBytes? n (c :: cs) = some (front, rest) ↔
          c.utf8Size ≤ n ∧ ∃ front', cutBytes? (n - c.utf8Size) cs = some (front', rest) ∧
            c :: front' = front := by
        by_cases hc : c.utf8Size ≤ n <;> simp [cutBytes?, hn, hc]
      rw [hcut]
      cases front with
      | nil => simpa [byteCount] using fun _ => Ne.symm hn
      | cons d front =>
        simp only [ih, byteCount, List.cons_append, List.cons.injEq]
        constructor
        · rintro ⟨hc, _, ⟨rfl, hcount⟩, rfl, rfl⟩
          exact ⟨⟨rfl, rfl⟩, by omega⟩
        · rintro ⟨⟨rfl, rfl⟩, hcount⟩
          exact ⟨by omega, front, ⟨rfl, by omega⟩, rfl, rfl⟩

end SignedPrefixes.Text
