import Mathlib.Data.Nat.Bitwise
import Mathlib.Tactic.Common

/-!
# Masks, shifts and fields of machine words

Masking a contiguous field of bits is division and remainder by powers of two,
which turns address arithmetic on bit patterns into linear arithmetic.
-/

namespace Lib

/-- Masking `m` bits from bit `k` on keeps that field in place. -/
theorem and_field (x k m : Nat) : x &&& (2 ^ m - 1) * 2 ^ k = x / 2 ^ k % 2 ^ m * 2 ^ k := by
  apply Nat.eq_of_testBit_eq
  intro i
  simp only [Nat.testBit_and, Nat.testBit_mul_two_pow, Nat.testBit_two_pow_sub_one,
    Nat.testBit_mod_two_pow, Nat.testBit_div_two_pow]
  by_cases hk : k ≤ i
  · have he : i - k + k = i := by omega
    by_cases hm : i - k < m <;> simp [hk, hm, he]
  · simp [hk]

/-- A shifted field, read as a number. -/
theorem shiftRight_and_field (x k m : Nat) : (x >>> k) &&& (2 ^ m - 1) = x / 2 ^ k % 2 ^ m := by
  rw [Nat.and_two_pow_sub_one_eq_mod, Nat.shiftRight_eq_div_pow]

end Lib
