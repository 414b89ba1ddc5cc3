import Mathlib
import SignedPrefixes.Octets

/-!
# Positional notation is exact

Reading the digits of a number back gives the number modulo the range they cover,
and digits below the base are recovered from their value. The same holds for the
octets of a number in network order, whose lexicographic order is that of the numbers.
-/

namespace SignedPrefixes

namespace Positional

/-- Digits in front are moved up by as many places as there are digits behind. -/
theorem value_append (base : ℕ) (ds es : List ℕ) :
    value base (ds ++ es) = value base ds * base ^ es.length + value base es := by
  induction es using List.reverseRecOn with
  | nil => simp
  | append_singleton es e ih =>
    rw [← List.append_assoc, value_append_singleton, ih, value_append_singleton,
      List.length_append, List.length_singleton, pow_succ]
    ring

/-- The first digit is moved up by as many places as there are digits behind it. -/
theorem value_cons (base d : ℕ) (ds : List ℕ) :
    value base (d :: ds) = d * base ^ ds.length + value base ds := by
  have happend := value_append base [d] ds
  simpa [value] using happend

/-- Digits below the base stand for a number with as many digits. -/
theorem value_lt {base : ℕ} {ds : List ℕ} (h : ∀ d ∈ ds, d < base) :
    value base ds < base ^ ds.length := by
  induction ds using List.reverseRecOn with
  | nil => simp
  | append_singleton ds d ih =>
    have hd : d < base := h d (by simp)
    have hds := ih fun e he => h e (by simp [he])
    have hmul := Nat.mul_le_mul_right base (Nat.succ_le_of_lt hds)
    rw [value_append_singleton, List.length_append, List.length_singleton, pow_succ]
    rw [Nat.succ_mul] at hmul
    omega

/-- Digits read back as the number modulo the range they cover. -/
theorem value_digits (base width n : ℕ) : value base (digits base width n) = n % base ^ width := by
  induction width generalizing n with
  | zero => simp [Nat.mod_one]
  | succ width ih =>
    rw [digits_succ, value_append_singleton, ih, pow_succ', Nat.mod_mul, Nat.add_comm,
      Nat.mul_comm base]

/-- Digits below the base are the digits of their value. -/
theorem digits_value {base : ℕ} {ds : List ℕ} (h : ∀ d ∈ ds, d < base) :
    digits base ds.length (value base ds) = ds := by
  induction ds using List.reverseRecOn with
  | nil => rfl
  | append_singleton ds d ih =>
    have hd : d < base := h d (by simp)
    have hds : ∀ e ∈ ds, e < base := fun e he => h e (by simp [he])
    have hpos : 0 < base := by omega
    rw [List.length_append, List.length_singleton, digits_succ, value_append_singleton,
      Nat.mul_comm, Nat.mul_add_div hpos, Nat.div_eq_of_lt hd, Nat.add_zero, ih hds,
      Nat.mul_add_mod, Nat.mod_eq_of_lt hd]

/-- Dropping the last digits divides by the range that they cover. -/
theorem take_digits (base width more n : ℕ) :
    (digits base (width + more) n).take width = digits base width (n / base ^ more) := by
  induction more generalizing n with
  | zero =>
    have hlength : (digits base width n).length = width := length_digits base width n
    rw [Nat.add_zero, pow_zero, Nat.div_one, List.take_of_length_le (by omega)]
  | succ more ih =>
    rw [← Nat.add_assoc, digits_succ, List.take_append_of_le_length (by simp), ih,
      Nat.div_div_eq_div_mul, pow_succ']

/-- The digits of a number are below the base. -/
theorem digits_lt {base : ℕ} (hbase : 0 < base) (width n : ℕ) :
    ∀ d ∈ digits base width n, d < base := by
  induction width generalizing n with
  | zero => simp
  | succ width ih =>
    intro d hd
    rw [digits_succ, List.mem_append, List.mem_singleton] at hd
    rcases hd with hd | rfl
    · exact ih _ d hd
    · exact Nat.mod_lt _ hbase

/-- Dropping the first digits leaves the last ones. -/
theorem drop_digits (base width more n : ℕ) :
    (digits base (width + more) n).drop width = digits base more n := by
  induction more generalizing n with
  | zero => exact List.drop_of_length_le (length_digits base width n).le
  | succ more ih =>
    rw [← Nat.add_assoc, digits_succ, List.drop_append_of_le_length (by simp), ih, ← digits_succ]

/-- The last digits depend on the range that they cover only. -/
theorem digits_mod {base : ℕ} (hbase : 0 < base) (width n : ℕ) :
    digits base width (n % base ^ width) = digits base width n := by
  have hback := digits_value (digits_lt hbase width n)
  rwa [length_digits, value_digits] at hback

/-- Numbers compare by what stands before their last part, and then by that part. -/
theorem compare_mul_add {base d e : ℕ} (m n : ℕ) (hd : d < base) (he : e < base) :
    compare (m * base + d) (n * base + e) = (compare m n).then (compare d e) := by
  have hless {k l f : ℕ} (g : ℕ) (hf : f < base) (h : k < l) : k * base + f < l * base + g := by
    have hmul := Nat.mul_le_mul_right base (Nat.succ_le_of_lt h)
    rw [Nat.succ_mul] at hmul
    omega
  rcases lt_trichotomy m n with hlt | rfl | hgt
  · rw [Nat.compare_eq_lt.mpr hlt, Ordering.lt_then, Nat.compare_eq_lt]
    exact hless e hd hlt
  · rw [Nat.compare_eq_eq.mpr rfl, Ordering.eq_then]
    simp only [Nat.compare_eq_ite_lt, Nat.add_lt_add_iff_left]
  · rw [Nat.compare_eq_gt.mpr hgt, Ordering.gt_then, Nat.compare_eq_gt]
    exact hless d he hgt

end Positional

namespace Octets

/-- Octets are digits to the base 256. -/
private theorem map_toNat_lt (os : Octets) : ∀ d ∈ os.map UInt8.toNat, d < 256 := by
  intro d hd
  obtain ⟨o, _, rfl⟩ := List.mem_map.mp hd
  exact o.toNat_lt

/-- Octets in front are moved up by as many places as there are octets behind. -/
theorem toNat_append (os os' : Octets) :
    toNat (os ++ os') = toNat os * 256 ^ os'.length + toNat os' := by
  rw [toNat, List.map_append, Positional.value_append, List.length_map, toNat, toNat]

/-- Zeros stand for zero. -/
theorem toNat_replicate_zero (n : ℕ) : toNat (List.replicate n 0) = 0 := by
  induction n with
  | zero => rfl
  | succ n ih =>
    rw [List.replicate_succ', toNat_append, ih]
    rfl

/-- The first octets of a number are those of its quotient by what the others can hold. -/
theorem take_ofNat (width more n : ℕ) :
    (ofNat (width + more) n).take width = ofNat width (n / 256 ^ more) := by
  rw [ofNat, ← List.map_take, Positional.take_digits, ofNat]

/-- The last octet of a number is its remainder. -/
theorem ofNat_succ (width n : ℕ) :
    ofNat (width + 1) n = ofNat width (n / 256) ++ [UInt8.ofNat (n % 256)] := by
  rw [ofNat, Positional.digits_succ, List.map_append, ofNat, List.map_singleton]

/-- The first octet is moved up by as many places as there are octets behind it. -/
theorem toNat_cons (o : UInt8) (os : Octets) :
    toNat (o :: os) = o.toNat * 256 ^ os.length + toNat os := by
  rw [toNat, List.map_cons, Positional.value_cons, List.length_map, toNat]

/-- One octet stands for its number. -/
theorem toNat_singleton (o : UInt8) : toNat [o] = o.toNat := by
  simp [toNat, Positional.value_cons]

/-- Octets stand for a number that fits as many octets. -/
theorem toNat_lt (os : Octets) : toNat os < 256 ^ os.length := by
  simpa [toNat] using Positional.value_lt (map_toNat_lt os)

/-- A number that is written in octets keeps what fits. -/
theorem toNat_ofNat (width n : ℕ) : toNat (ofNat width n) = n % 256 ^ width := by
  have hmap : (ofNat width n).map UInt8.toNat = Positional.digits 256 width n := by
    rw [ofNat, List.map_map]
    refine (List.map_congr_left fun d hd => ?_).trans (List.map_id _)
    exact UInt8.toNat_ofNat_of_lt (Positional.digits_lt (by decide) width n d hd)
  rw [toNat, hmap, Positional.value_digits]

/-- Octets are recovered from the number they stand for. -/
theorem ofNat_toNat (os : Octets) : ofNat os.length (toNat os) = os := by
  have h := Positional.digits_value (map_toNat_lt os)
  rw [List.length_map] at h
  rw [ofNat, toNat, h, List.map_map]
  exact (List.map_congr_left fun o _ => UInt8.ofNat_toNat).trans (List.map_id _)

/-- Octet strings of one length are in lexicographic order as the numbers that they stand for. -/
theorem compareLex_eq_compare_toNat {os os' : Octets} (h : os.length = os'.length) :
    List.compareLex compare os os' = compare (toNat os) (toNat os') := by
  induction os generalizing os' with
  | nil =>
    obtain rfl := List.eq_nil_of_length_eq_zero h.symm
    rfl
  | cons o os ih =>
    obtain ⟨o', os', rfl⟩ := List.exists_cons_of_length_eq_add_one h.symm
    have hrest : os.length = os'.length := Nat.succ.inj h
    have hlt : toNat os' < 256 ^ os.length := hrest ▸ toNat_lt os'
    rw [List.compareLex_cons_cons, ih hrest, UInt8.compare_eq_toNat_compare_toNat, toNat_cons,
      toNat_cons, ← hrest, Positional.compare_mul_add _ _ (toNat_lt os) hlt]

/-- Numbers that are written in as many octets are compared octet by octet. -/
theorem compareLex_ofNat {width m n : ℕ} (hm : m < 256 ^ width) (hn : n < 256 ^ width) :
    List.compareLex compare (ofNat width m) (ofNat width n) = compare m n := by
  rw [compareLex_eq_compare_toNat (by rw [length_ofNat, length_ofNat]), toNat_ofNat, toNat_ofNat,
    Nat.mod_eq_of_lt hm, Nat.mod_eq_of_lt hn]

end Octets

end SignedPrefixes
