import Mathlib.Data.Int.ModEq
import Mathlib.Tactic.LinearCombination
import Mathlib.Tactic.Linarith
import Mathlib.Tactic.Ring

/-!
Montgomery multiplication on numbers: products that are divided by a power of
the base, powers computed with them, and the inverse of an odd number by
Newton's iteration.
-/

namespace AllJoyn.Lib.Montgomery

/-! ### The inverse -/

/-- A step of the iteration doubles the bits of the inverse that are right. -/
theorem newton_step {b x n : Int} (hinverse : b * x ≡ 1 [ZMOD n]) :
    b * (x * (2 - b * x)) ≡ 1 [ZMOD n * n] := by
  obtain ⟨c, hc⟩ := hinverse.symm.dvd
  rw [Int.modEq_iff_dvd]
  refine ⟨c * c, ?_⟩
  linear_combination (b * x - 1 + n * c) * hc

/-! ### Products -/

/-- `r` is the product of `x` and `y` over `radix`, up to a multiple of the
modulus that is less than `radix` times it. -/
def Reduces (radix m x y r : Nat) : Prop := ∃ u < radix, radix * r = x * y + u * m

theorem Reduces.modEq {radix m x y r : Nat} (hreduces : Reduces radix m x y r) :
    radix * r ≡ x * y [MOD m] := by
  obtain ⟨u, -, hsum⟩ := hreduces
  rw [hsum, Nat.ModEq, Nat.add_mul_mod_self_right]

/-- One subtraction is enough to bring the product below the modulus. -/
theorem Reduces.lt_two_mul {radix m x y r : Nat} (hreduces : Reduces radix m x y r)
    (hx : x < radix) (hy : y ≤ m) (hm : 0 < m) : r < 2 * m := by
  obtain ⟨u, hu, hsum⟩ := hreduces
  have hproduct : x * y ≤ (radix - 1) * m := Nat.mul_le_mul (by omega) hy
  have hmultiple : u * m ≤ (radix - 1) * m := Nat.mul_le_mul_right _ (by omega)
  have hlt : radix * r < radix * (2 * m) := by
    have hsplit : radix * m = (radix - 1) * m + m := by
      obtain ⟨k, rfl⟩ : ∃ k, radix = k + 1 := ⟨radix - 1, by omega⟩
      rw [Nat.add_sub_cancel, Nat.add_mul, Nat.one_mul]
    have hdouble : radix * (2 * m) = radix * m + radix * m := by ring
    omega
  exact Nat.lt_of_mul_lt_mul_left hlt

/-! ### Powers -/

section Power

variable {radix m x : Nat} (hcoprime : Nat.Coprime m radix)

/-- A number in the domain of Montgomery products. -/
def Represents (radix m a n : Nat) : Prop := a ≡ n * radix [MOD m]

include hcoprime

theorem Represents.mul {a b c n k : Nat} (ha : Represents radix m a n) (hb : Represents radix m b k)
    (hc : radix * c ≡ a * b [MOD m]) : Represents radix m c (n * k) := by
  apply Nat.ModEq.cancel_left_of_coprime hcoprime
  have hmul : a * b ≡ n * radix * (k * radix) [MOD m] := Nat.ModEq.mul ha hb
  have hassoc : n * radix * (k * radix) = radix * (n * k * radix) := by ring
  rw [hassoc] at hmul
  exact hc.trans hmul

theorem Represents.leave {a n r : Nat} (ha : Represents radix m a n)
    (hr : radix * r ≡ a * 1 [MOD m]) : r ≡ n [MOD m] := by
  apply Nat.ModEq.cancel_left_of_coprime hcoprime
  rw [Nat.mul_one] at hr
  rw [Nat.mul_comm radix n]
  exact hr.trans ha

theorem represents_enter {a n : Nat} (ha : radix * a ≡ n * (radix * radix) [MOD m]) :
    Represents radix m a n := by
  apply Nat.ModEq.cancel_left_of_coprime hcoprime
  have hassoc : n * (radix * radix) = radix * (n * radix) := by ring
  rwa [hassoc] at ha

end Power

/-! ### Binary exponents -/

theorem shiftRight_eq_bit (e i : Nat) :
    e >>> i = 2 * (e >>> (i + 1)) + (e.testBit i).toNat := by
  have hsplit := Nat.mod_add_div (e >>> i) 2
  rw [Nat.shiftRight_succ, Nat.testBit_eq_decide_div_mod_eq, ← Nat.shiftRight_eq_div_pow]
  rcases Nat.mod_two_eq_zero_or_one (e >>> i) with hzero | hone
  · rw [hzero] at hsplit ⊢
    simp only [Nat.zero_ne_one, decide_false, Bool.toNat_false]
    omega
  · rw [hone] at hsplit ⊢
    simp only [decide_true, Bool.toNat_true]
    omega

end AllJoyn.Lib.Montgomery
