import Mathlib.Tactic
import Mathlib.Data.Int.ModEq
import Mathlib.Data.Int.GCD

/-!
The extended Euclidean algorithm on coefficients without a sign. The sign of
each congruence follows from the number of turns, and a determinant that stays
equal to the modulus bounds the coefficients.
-/

namespace AllJoyn.Lib.Euclid

open Int

/-- The sign of the coefficients, which changes with every turn. -/
def sign (odd : Bool) : Int := if odd then -1 else 1

@[simp]
theorem sign_not (odd : Bool) : sign (!odd) = -sign odd := by
  cases odd <;> rfl

/-- What holds before every turn of the loop for `x` and `m`. -/
structure Invariant (x m u1 u3 v1 v3 : Int) (odd : Bool) : Prop where
  coefficients : 0 ≤ u1 ∧ 0 ≤ v1
  remainders : 0 ≤ u3 ∧ 0 ≤ v3
  determinant : u1 * v3 + v1 * u3 = m
  left : u1 * x ≡ sign odd * u3 [ZMOD m]
  right : v1 * x ≡ -sign odd * v3 [ZMOD m]
  gcd : Int.gcd u3 v3 = Int.gcd x m
  ordered : u1 ≤ v1 ∧ v3 < u3 ∨ u1 = 1 ∧ v1 = 0

variable {x m u1 u3 v1 v3 : Int} {odd : Bool}

theorem Invariant.start (hx : 0 ≤ x) (hm : 0 ≤ m) : Invariant x m 1 x 0 m false where
  coefficients := by omega
  remainders := ⟨hx, hm⟩
  determinant := by ring
  left := by simp [sign]
  right := by simp [modEq_iff_dvd]
  gcd := rfl
  ordered := by omega

theorem Invariant.step (h : Invariant x m u1 u3 v1 v3 odd) (hv3 : 0 < v3) :
    Invariant x m v1 v3 (u1 + u3 / v3 * v1) (u3 % v3) (!odd) := by
  have hsplit := emod_add_mul_ediv u3 v3
  have hquot : 0 ≤ u3 / v3 := ediv_nonneg h.remainders.1 hv3.le
  have hterm : 0 ≤ u3 / v3 * v1 := mul_nonneg hquot h.coefficients.2
  have hrem : u3 % v3 = u3 - u3 / v3 * v3 := by linarith [mul_comm v3 (u3 / v3)]
  refine ⟨⟨h.coefficients.2, by linarith [h.coefficients.1]⟩,
    ⟨hv3.le, emod_nonneg _ hv3.ne'⟩, ?_, ?_, ?_, ?_, ?_⟩
  · rw [hrem, ← h.determinant]
    ring
  · simpa using h.right
  · have hsum := h.left.add (h.right.mul_left (u3 / v3))
    rw [sign_not, hrem]
    convert hsum using 1 <;> ring
  · rw [← h.gcd, Int.gcd_comm v3, gcd_emod]
  · left
    refine ⟨?_, emod_lt_of_pos _ hv3⟩
    rcases h.ordered with ⟨-, hlt⟩ | ⟨-, hzero⟩
    · have hone : 1 ≤ u3 / v3 := Int.le_ediv_of_mul_le hv3 (by linarith)
      nlinarith [h.coefficients.1, h.coefficients.2]
    · rw [hzero]
      linarith [h.coefficients.1]

theorem Invariant.inverse (h : Invariant x m u1 1 v1 0 odd) (hm : 2 ≤ m) :
    0 < (if odd then m - u1 else u1) ∧ (if odd then m - u1 else u1) < m ∧
      x * (if odd then m - u1 else u1) ≡ 1 [ZMOD m] := by
  have hv1 : v1 = m := by linarith [h.determinant]
  have hle : u1 ≤ m := by rcases h.ordered with h | h <;> omega
  have hunit : ¬ m ∣ u1 := by
    intro hdvd
    have hzero : sign odd ≡ 0 [ZMOD m] := by
      simpa using h.left.symm.trans (modEq_zero_iff_dvd.2 (hdvd.mul_right x))
    have hone : m ∣ 1 := by
      have := modEq_zero_iff_dvd.1 hzero
      cases odd
      · exact this
      · exact Int.dvd_neg.1 this
    have := le_of_dvd one_pos hone
    omega
  have hne : u1 ≠ 0 ∧ u1 ≠ m := ⟨by rintro rfl; simp at hunit, by rintro rfl; simp at hunit⟩
  have hpos := h.coefficients.1
  cases odd with
  | false =>
    refine ⟨by simp; omega, by simp; omega, ?_⟩
    simpa [sign, mul_comm] using h.left
  | true =>
    refine ⟨by simp; omega, by simp; omega, ?_⟩
    have hneg := h.left.neg
    have hmul : x * (m - u1) = m * x + -(u1 * x) := by ring
    simp only [if_true, hmul]
    simpa [sign] using hneg

theorem inverse_unique {y z : Int} (hy : 0 ≤ y ∧ y < m) (hz : 0 ≤ z ∧ z < m)
    (hxy : x * y ≡ 1 [ZMOD m]) (hxz : x * z ≡ 1 [ZMOD m]) : y = z := by
  have hsame : y ≡ z [ZMOD m] := by
    calc y = y * 1 := (mul_one y).symm
      _ ≡ y * (x * z) [ZMOD m] := (hxz.mul_left y).symm
      _ = x * y * z := by ring
      _ ≡ 1 * z [ZMOD m] := hxy.mul_right z
      _ = z := one_mul z
  rwa [Int.ModEq, emod_eq_of_lt hy.1 hy.2, emod_eq_of_lt hz.1 hz.2] at hsame

end AllJoyn.Lib.Euclid
