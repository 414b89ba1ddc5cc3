/-!
# Positional notation of fixed width

Numbers written with a fixed number of digits, most significant digit first.
The octets of an address, its sixteen-bit groups and the integers of the record
format are all instances.
-/

namespace SignedPrefixes.Positional

/-- The last `width` digits of `n`, written in front of `after`. -/
def digitsBefore (base : Nat) : (width n : Nat) → (after : List Nat) → List Nat
  | 0, _, after => after
  | width + 1, n, after => digitsBefore base width (n / base) (n % base :: after)

/-- The last `width` digits of `n`, most significant first. -/
def digits (base width n : Nat) : List Nat := digitsBefore base width n []

/-- The number with the given digits, most significant first. -/
def value (base : Nat) (ds : List Nat) : Nat := ds.foldl (fun n d => n * base + d) 0

/-- The digits are put before whatever comes after them. -/
theorem digitsBefore_eq_append (base width n : Nat) (after : List Nat) :
    digitsBefore base width n after = digits base width n ++ after := by
  induction width generalizing n after with
  | zero => rfl
  | succ width ih =>
    rw [digits, digitsBefore, digitsBefore, ih, ih _ [_], List.append_assoc]
    rfl

/-- A number of no digits is written as nothing. -/
@[simp] theorem digits_zero (base n : Nat) : digits base 0 n = [] := rfl

/-- The last digit is the remainder, and the digits before it are those of the quotient. -/
theorem digits_succ (base width n : Nat) :
    digits base (width + 1) n = digits base width (n / base) ++ [n % base] := by
  rw [digits, digitsBefore, digitsBefore_eq_append]

/-- A number has as many digits as it is given. -/
@[simp] theorem length_digits (base width n : Nat) : (digits base width n).length = width := by
  induction width generalizing n with
  | zero => rfl
  | succ width ih => rw [digits_succ, List.length_append, ih, List.length_singleton]

/-- No digits stand for zero. -/
@[simp] theorem value_nil (base : Nat) : value base [] = 0 := rfl

/-- A digit at the end moves the others up by one place. -/
theorem value_append_singleton (base : Nat) (ds : List Nat) (d : Nat) :
    value base (ds ++ [d]) = value base ds * base + d := by
  simp [value]

end SignedPrefixes.Positional
