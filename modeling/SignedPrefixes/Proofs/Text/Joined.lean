import Mathlib

/-!
# Texts joined with a separator

The parts of a joined text are put together with a separator between any two of them. Parts that
are written one by one are read one by one.
-/

namespace SignedPrefixes.Text

variable {α β : Type} {sep : Char} {parts : List (List Char)}

/-- The characters of a joined text are those of its parts and the separator. -/
theorem forall_mem_intercalate {p : Char → Prop} (hsep : p sep)
    (h : ∀ part ∈ parts, ∀ c ∈ part, p c) : ∀ c ∈ [sep].intercalate parts, p c := by
  induction parts with
  | nil => simp
  | cons part parts ih =>
    have hpart := h part List.mem_cons_self
    have hparts := ih fun q hq => h q (List.mem_cons_of_mem part hq)
    cases parts with
    | nil => simpa using hpart
    | cons next parts =>
      intro c hc
      simp only [List.intercalate_cons_cons, List.mem_append, List.mem_singleton] at hc
      rcases hc with (hc | rfl) | hc
      · exact hpart c hc
      · exact hsep
      · exact hparts c hc

/-- The characters of a part are characters of the text. -/
theorem mem_of_mem_splitOn {cs part : List Char} {c : Char} (hpart : part ∈ cs.splitOn sep)
    (hc : c ∈ part) : c ∈ cs := by
  suffices hjoined : ∀ parts : List (List Char), part ∈ parts → c ∈ [sep].intercalate parts by
    simpa using hjoined _ hpart
  intro parts hmem
  induction parts with
  | nil => cases hmem
  | cons first parts ih =>
    cases parts with
    | nil =>
      obtain rfl := List.mem_singleton.mp hmem
      simpa using hc
    | cons next parts =>
      rw [List.intercalate_cons_cons, List.append_assoc, List.mem_append]
      rcases List.mem_cons.mp hmem with rfl | hmem
      · exact Or.inl hc
      · exact Or.inr (List.mem_append_right [sep] (ih hmem))

/-- If reading undoes writing, reading all that is written gives everything back. -/
theorem mapM_map_eq_pure {m : Type → Type} [Monad m] [LawfulMonad m] {write : α → β}
    {read : β → m α} {as : List α} (h : ∀ a ∈ as, read (write a) = pure a) :
    (as.map write).mapM read = pure as := by
  induction as with
  | nil => rfl
  | cons a as ih =>
    rw [List.map_cons, List.mapM_cons, h a List.mem_cons_self, pure_bind,
      ih fun b hb => h b (List.mem_cons_of_mem a hb), pure_bind]

end SignedPrefixes.Text
