import Mathlib
import Std.Data.TreeMap.Lemmas

/-!
# Entries of sorted maps

Counting over the entries of a map goes through its list of entries. Inserting at a
new key adds an entry to that list, and inserting at another key replaces one entry.
-/

namespace SignedPrefixes

/-- The empty map has no entries. -/
@[simp] theorem toList_empty {α β : Type} [Ord α] : (∅ : Std.TreeMap α β).toList = [] := rfl

/-- The values of a map are those of its entries, in the order of the keys. -/
theorem values_eq_map_toList {α β : Type} [Ord α] (t : Std.TreeMap α β) :
    t.values = t.toList.map Prod.snd := by
  have h : t.values = t.foldr (fun _ b bs => b :: bs) [] := rfl
  rw [h, Std.TreeMap.foldr_eq_foldr_toList]
  induction t.toList with
  | nil => rfl
  | cons entry entries ih => rw [List.foldr_cons, ih, List.map_cons]

variable {α β : Type} [Ord α] [Std.TransOrd α] [Std.LawfulEqOrd α] [DecidableEq α]
  {t : Std.TreeMap α β} {k : α}

/-- A new key adds an entry to a map. -/
theorem toList_insert_of_none (h : t[k]? = none) (b : β) :
    (t.insert k b).toList.Perm ((k, b) :: t.toList) := by
  have hself : t.toList.filter (¬k == ·.1) = t.toList := by
    rw [List.filter_eq_self]
    rintro ⟨k', a⟩ hentry
    rw [Std.TreeMap.mem_toList_iff_getElem?_eq_some] at hentry
    have hne : k ≠ k' := by
      rintro rfl
      rw [h] at hentry
      cases hentry
    simpa using hne
  have hperm := Std.TreeMap.toList_insert_perm (t := t) (k := k) (v := b)
  rwa [hself] at hperm

/-- A key that is known exchanges its entry and keeps all others. -/
theorem exists_toList_insert_of_some {a : β} (h : t[k]? = some a) (b : β) :
    ∃ entries, t.toList.Perm ((k, a) :: entries) ∧
      (t.insert k b).toList.Perm ((k, b) :: entries) := by
  refine ⟨t.toList.filter (¬k == ·.1), ?_, Std.TreeMap.toList_insert_perm⟩
  have hnodup : t.toList.Nodup := by
    refine List.Pairwise.imp (fun hne heq => hne ?_) (Std.TreeMap.distinct_keys_toList (t := t))
    rw [heq]
    exact Std.ReflCmp.compare_self
  have hnotMem : (k, a) ∉ t.toList.filter (¬k == ·.1) := by simp
  rw [List.perm_ext_iff_of_nodup hnodup (List.nodup_cons.mpr ⟨hnotMem, hnodup.filter _⟩)]
  rintro ⟨k', a'⟩
  rw [List.mem_cons, List.mem_filter]
  by_cases hk : k = k'
  · subst hk
    have hiff : (k, a') ∈ t.toList ↔ a' = a := by
      rw [Std.TreeMap.mem_toList_iff_getElem?_eq_some, h, Option.some.injEq, eq_comm]
    simp [hiff]
  · simp [hk, Ne.symm hk]

end SignedPrefixes
