import Mathlib.Data.Nat.Digits.Lemmas

/-!
# Numerals

A number is written with its digits in a base, the highest first. The digits are found from the
lowest on, by division with remainder.
-/

namespace Lib

variable {b n : Nat}

/-- The number that is read from the highest digit on. -/
def numeralValue (b : Nat) (ds : List Nat) : Nat := ds.foldl (fun v d => b * v + d) 0

/-- The digits of a number, the highest first. Zero has none. -/
def highDigits (b n : Nat) : List Nat := (Nat.digits b n).reverse

/-- The digits write the number. Only zero itself begins with the digit zero. -/
structure IsNumeral (b : Nat) (ds : List Nat) (n : Nat) : Prop where
  ne_nil : ds ≠ []
  lt_base : ∀ d ∈ ds, d < b
  no_leading_zero : ds.head? = some 0 → ds = [0]
  value_eq : numeralValue b ds = n

theorem numeralValue_concat (b : Nat) (ds : List Nat) (d : Nat) :
    numeralValue b (ds ++ [d]) = b * numeralValue b ds + d := by
  rw [numeralValue, List.foldl_append]
  rfl

theorem numeralValue_reverse (b : Nat) (ds : List Nat) :
    numeralValue b ds.reverse = Nat.ofDigits b ds := by
  induction ds with
  | nil => rfl
  | cons d ds ih =>
    rw [List.reverse_cons, numeralValue_concat, ih, Nat.ofDigits_cons, Nat.add_comm]

theorem highDigits_zero (b : Nat) : highDigits b 0 = [] := by
  rw [highDigits, Nat.digits_zero, List.reverse_nil]

/-- The remainder is the lowest digit, the quotient has the others. -/
theorem highDigits_of_ne_zero (hb : 1 < b) (hn : n ≠ 0) :
    highDigits b n = highDigits b (n / b) ++ [n % b] := by
  rw [highDigits, Nat.digits_eq_cons_digits_div hb hn, List.reverse_cons]
  rfl

/-- The highest digit is not zero. -/
theorem head?_highDigits_ne_zero (b : Nat) (hn : n ≠ 0) : (highDigits b n).head? ≠ some 0 := by
  have hne : Nat.digits b n ≠ [] := Nat.digits_ne_nil_iff_ne_zero.mpr hn
  rw [highDigits, List.head?_reverse, List.getLast?_eq_some_getLast hne]
  exact fun h => Nat.getLast_digit_ne_zero b hn (Option.some.inj h)

theorem isNumeral_zero (hb : 0 < b) : IsNumeral b [0] 0 where
  ne_nil := List.cons_ne_nil 0 []
  lt_base _ hd := List.mem_singleton.mp hd ▸ hb
  no_leading_zero _ := rfl
  value_eq := Nat.add_zero (b * 0)

theorem isNumeral_highDigits (hb : 1 < b) (hn : n ≠ 0) : IsNumeral b (highDigits b n) n where
  ne_nil := List.reverse_ne_nil_iff.mpr (Nat.digits_ne_nil_iff_ne_zero.mpr hn)
  lt_base _ hd := Nat.digits_lt_base hb (List.mem_reverse.mp hd)
  no_leading_zero h := absurd h (head?_highDigits_ne_zero b hn)
  value_eq := by rw [highDigits, numeralValue_reverse, Nat.ofDigits_digits]

end Lib
