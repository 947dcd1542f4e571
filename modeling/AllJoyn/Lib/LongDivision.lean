import Mathlib.Tactic.Ring

/-!
Long division in any base, digit by digit from the top, with the quotient digit
estimated from the leading digits.
-/

namespace AllJoyn.Lib.LongDivision

open Nat

variable {base : Nat}

/-- What is divided for the quotient digit `d`: the remainder of the digits
above, followed by the digit `d`. -/
def dividend (base x y d : Nat) : Nat := x / base ^ (d + 1) % y * base + x / base ^ d % base

/-- The quotient digit as the digits above the lowest `k` tell. -/
def estimate (base u y k : Nat) : Nat := min (base - 1) (u / base ^ k / (y / base ^ k))

theorem div_pow_succ (base x d : Nat) : x / base ^ (d + 1) = x / base ^ d / base := by
  rw [Nat.pow_succ, Nat.div_div_eq_div_mul]

theorem dividend_mod (base x y d : Nat) : dividend base x y d % y = x / base ^ d % y := by
  have hsplit : x / base ^ d = x / base ^ (d + 1) * base + x / base ^ d % base := by
    rw [div_pow_succ]
    exact (div_add_mod' _ _).symm
  calc dividend base x y d % y
      = (x / base ^ (d + 1) * base + x / base ^ d % base) % y := by
        rw [dividend, add_mod, mod_mul_mod, ← add_mod]
    _ = x / base ^ d % y := by rw [← hsplit]

theorem div_eq (base x y d : Nat) :
    x / base ^ d / y = x / base ^ (d + 1) / y * base + dividend base x y d / y := by
  rcases Nat.eq_zero_or_pos y with rfl | hpos
  · simp
  · have hsplit : x / base ^ d = x / base ^ (d + 1) * base + x / base ^ d % base := by
      rw [div_pow_succ]
      exact (div_add_mod' _ _).symm
    have hhigh := div_add_mod (x / base ^ (d + 1)) y
    have hsum : x / base ^ d =
        dividend base x y d + y * (x / base ^ (d + 1) / y * base) := by
      rw [dividend]
      calc x / base ^ d = x / base ^ (d + 1) * base + x / base ^ d % base := hsplit
        _ = (y * (x / base ^ (d + 1) / y) + x / base ^ (d + 1) % y) * base +
              x / base ^ d % base := by rw [hhigh]
        _ = _ := by ring
    rw [hsum, add_mul_div_left _ _ hpos, Nat.add_comm]

theorem dividend_lt {y : Nat} (hbase : 0 < base) (hpos : 0 < y) (x d : Nat) :
    dividend base x y d < y * base := by
  have hmod := mod_lt (x / base ^ (d + 1)) hpos
  have hdigit := mod_lt (x / base ^ d) hbase
  have hle : (x / base ^ (d + 1) % y + 1) * base ≤ y * base := Nat.mul_le_mul_right _ hmod
  rw [dividend]
  rw [Nat.add_mul] at hle
  omega

/-- Leading digits alone never make a quotient too small. -/
theorem div_le_div_leading {a b c : Nat} (hpos : 0 < b / c) : a / b ≤ a / c / (b / c) := by
  rw [Nat.div_div_eq_div_mul]
  apply div_le_div_left (mul_div_le b c)
  rcases Nat.eq_zero_or_pos c with rfl | hc
  · simp at hpos
  · exact Nat.mul_pos hc hpos

theorem div_le_estimate {u y k : Nat} (hlt : u < y * base) (hleading : 0 < y / base ^ k) :
    u / y ≤ estimate base u y k := by
  have hdigit : u / y < base := Nat.div_lt_of_lt_mul hlt
  exact le_min (by omega) (div_le_div_leading hleading)

/-- The multiple of the divisor can be subtracted exactly if the estimate is the
quotient digit. -/
theorem estimate_mul_le_iff {u y k : Nat} (hlt : u < y * base) (hleading : 0 < y / base ^ k) :
    estimate base u y k * y ≤ u ↔ estimate base u y k = u / y := by
  have hpos : 0 < y := by
    rcases Nat.eq_zero_or_pos y with rfl | hpos
    · simp at hleading
    · exact hpos
  constructor
  · intro hle
    exact Nat.le_antisymm ((Nat.le_div_iff_mul_le hpos).mpr hle) (div_le_estimate hlt hleading)
  · intro heq
    rw [heq]
    exact div_mul_le_self u y

end AllJoyn.Lib.LongDivision
