import AllJoyn.Crypto.BigNum.DivisionLoop
import AllJoyn.Crypto.BigNum.ModExp
import AllJoyn.Lib.Montgomery
import Mathlib.Data.Nat.Bitwise
import Mathlib.Data.Nat.Prime.Basic
import Mathlib.Tactic.IntervalCases

/-!
`monty_mul` computes Montgomery products, whatever storage it reuses.
-/

namespace AllJoyn.Crypto.BigNum

open Lib.Limbs Lib.Montgomery List

/-! ### The inverse of the lowest digit -/

theorem toNat_mul_modEq (x y : UInt64) :
    ((x * y).toNat : Int) ≡ x.toNat * y.toNat [ZMOD 2 ^ 64] := by
  rw [UInt64.toNat_mul]
  push_cast
  exact Int.mod_modEq _ _

theorem toNat_sub_modEq (x y : UInt64) :
    ((x - y).toNat : Int) ≡ x.toNat - y.toNat [ZMOD 2 ^ 64] := by
  have hy := y.toNat_lt
  rw [UInt64.toNat_sub, Int.natCast_emod, Nat.cast_add, Nat.cast_sub hy.le]
  have hmod := Int.mod_modEq (((2 ^ 64 : Nat) : Int) - y.toNat + x.toNat) ((2 ^ 64 : Nat) : Int)
  refine hmod.trans ?_
  rw [Int.modEq_iff_dvd]
  exact ⟨-1, by push_cast; ring⟩

variable {b : UInt64} {acc storage : List UInt32} {len : Nat}

theorem newton_word {x : UInt64} {n : Int} (hn : n * n ∣ 2 ^ 64)
    (hinverse : (b.toNat : Int) * x.toNat ≡ 1 [ZMOD n]) :
    (b.toNat : Int) * (x * (2 - b * x)).toNat ≡ 1 [ZMOD n * n] := by
  have hproduct := toNat_mul_modEq b x
  have hdifference : ((2 - b * x).toNat : Int) ≡ 2 - b.toNat * x.toNat [ZMOD 2 ^ 64] :=
    (toNat_sub_modEq 2 (b * x)).trans (Int.ModEq.sub_left 2 hproduct)
  have hnext : ((x * (2 - b * x)).toNat : Int) ≡ x.toNat * (2 - b.toNat * x.toNat) [ZMOD 2 ^ 64] :=
    (toNat_mul_modEq x (2 - b * x)).trans (Int.ModEq.mul_left _ hdifference)
  exact (Int.ModEq.mul_left _ (hnext.of_dvd hn)).trans (newton_step hinverse)

theorem newton_start (hb : b.toNat < radix) (hodd : b.toNat % 2 = 1) :
    (b.toNat : Int) * (((b + 2) &&& 4) <<< 1 + b).toNat ≡ 1 [ZMOD 16] := by
  have hbit : (b.toNat + 2) &&& 4 = 4 * ((b.toNat + 2) / 4 % 2) := by
    have hand := Nat.and_two_pow (b.toNat + 2) 2
    rw [Nat.testBit_eq_decide_div_mod_eq] at hand
    rcases Nat.mod_two_eq_zero_or_one ((b.toNat + 2) / 4) with hzero | hone
    · simpa [hzero] using hand
    · simpa [hone] using hand
  have hvalue : (((b + 2) &&& 4) <<< 1 + b).toNat =
      b.toNat + 8 * ((b.toNat + 2) / 4 % 2) := by
    have hsum : (b + 2).toNat = b.toNat + 2 := by
      rw [UInt64.toNat_add]
      rw [radix] at hb
      simp only [UInt64.reduceToNat]
      omega
    rw [UInt64.toNat_add, UInt64.toNat_shiftLeft, UInt64.toNat_and, hsum]
    simp only [UInt64.reduceToNat, Nat.reduceMod]
    rw [radix] at hb
    omega
  -- only the residue modulo 16 counts
  obtain ⟨q, r, hr, hsplit⟩ : ∃ q r, r < 16 ∧ b.toNat = 16 * q + r :=
    ⟨b.toNat / 16, b.toNat % 16, Nat.mod_lt _ (by decide), (Nat.div_add_mod _ _).symm⟩
  have hquarter : (b.toNat + 2) / 4 % 2 = (r + 2) / 4 % 2 := by omega
  have hrodd : r % 2 = 1 := by omega
  have hleft : (b.toNat : Int) ≡ r [ZMOD 16] := by
    rw [hsplit, Int.modEq_iff_dvd]
    exact ⟨-q, by push_cast; ring⟩
  have hright : ((b.toNat + 8 * ((b.toNat + 2) / 4 % 2) : Nat) : Int) ≡
      r + 8 * ((r + 2) / 4 % 2 : Nat) [ZMOD 16] := by
    rw [hquarter]
    push_cast
    exact Int.ModEq.add_right _ hleft
  have hresidue : (r : Int) * (r + 8 * ((r + 2) / 4 % 2 : Nat)) ≡ 1 [ZMOD 16] := by
    interval_cases r <;> first | exact absurd hrodd (by decide) | decide
  rw [hvalue]
  exact (hleft.mul hright).trans hresidue

theorem negated_inverse {x : UInt64} (hinverse : (b.toNat : Int) * x.toNat ≡ 1 [ZMOD 2 ^ 32]) :
    ((-x).toUInt32.toNat * b.toNat + 1) % radix = 0 := by
  have hneg : ((-x).toUInt32.toNat : Int) ≡ -x.toNat [ZMOD 2 ^ 32] := by
    have hsub := toNat_sub_modEq 0 x
    rw [UInt64.toNat_toUInt32]
    push_cast
    refine (Int.mod_modEq _ _).trans ?_
    have hdvd := hsub.of_dvd (by decide : (2 : Int) ^ 32 ∣ 2 ^ 64)
    simpa using hdvd
  have hsum : ((-x).toUInt32.toNat : Int) * b.toNat + 1 ≡ 0 [ZMOD 2 ^ 32] := by
    have hproduct := (hneg.mul_right (b.toNat : Int)).add_right 1
    refine hproduct.trans ?_
    rw [Int.modEq_iff_dvd]
    obtain ⟨c, hc⟩ := hinverse.dvd
    exact ⟨-c, by linear_combination (-1) * hc⟩
  have hdvd := Int.modEq_zero_iff_dvd.mp hsum
  apply Nat.mod_eq_zero_of_dvd
  have hradix : ((radix : Nat) : Int) = 2 ^ 32 := by
    rw [radix]
    norm_num
  rw [← Int.natCast_dvd_natCast]
  exact hdvd

theorem montyRho_spec (hb : b.toNat < radix) (hodd : b.toNat % 2 = 1) :
    ((montyRho b).toNat * b.toNat + 1) % radix = 0 := by
  have hand : b &&& 1 ≠ 0 := by
    intro hzero
    have hnat := congrArg UInt64.toNat hzero
    rw [UInt64.toNat_and] at hnat
    simp only [UInt64.reduceToNat, Nat.and_one_is_mod] at hnat
    omega
  -- 4 bits of the inverse are right at the start, then 8, 16 and 32
  have h8 := newton_word (n := 2 ^ 4) (by decide) (newton_start hb hodd)
  have h16 := newton_word (n := 2 ^ 8) (by decide) h8
  have h32 := newton_word (n := 2 ^ 16) (by decide) h16
  rw [montyRho, if_neg hand]
  exact negated_inverse h32

/-! ### The loops of the product -/

theorem montyDigit {X u y m rd carry : UInt64} (hX : X.toNat < radix) (hu : u.toNat < radix)
    (hy : y.toNat < radix) (hm : m.toNat < radix) (hrd : rd.toNat < radix)
    (hcarry : carry.toNat < 2 * radix) :
    let Y := X * y
    let M := u * m
    let R := rd + carry + Y.toUInt32.toUInt64 + M.toUInt32.toUInt64
    let next := R >>> 32 + Y >>> 32 + M >>> 32
    R.toUInt32.toNat + radix * next.toNat =
        rd.toNat + carry.toNat + X.toNat * y.toNat + u.toNat * m.toNat ∧
      next.toNat < 2 * radix := by
  intro Y M R next
  obtain ⟨hY, hYle⟩ := toNat_mul_of_lt hX hy
  obtain ⟨hM, hMle⟩ := toNat_mul_of_lt hu hm
  have hYsplit := value_word Y
  have hMsplit := value_word M
  have hRsplit := value_word R
  have hYlow := toNat_lt_radix Y.toUInt32
  have hMlow := toNat_lt_radix M.toUInt32
  have hR : R.toNat = rd.toNat + carry.toNat + Y.toUInt32.toNat + M.toUInt32.toNat := by
    simp only [R, UInt64.toNat_add, UInt32.toNat_toUInt64]
    rw [radix] at hrd hcarry hYlow hMlow
    omega
  have hYhigh : (Y >>> 32).toNat < radix := by
    rw [hY] at hYsplit
    rw [radix] at hYsplit hYle ⊢
    omega
  have hMhigh : (M >>> 32).toNat < radix := by
    rw [hM] at hMsplit
    rw [radix] at hMsplit hMle ⊢
    omega
  have hRhigh : (R >>> 32).toNat < radix := by
    rw [radix] at hRsplit hrd hcarry hYlow hMlow ⊢
    omega
  have hnext : next.toNat = (R >>> 32).toNat + (Y >>> 32).toNat + (M >>> 32).toNat := by
    simp only [next, UInt64.toNat_add]
    rw [radix] at hYhigh hMhigh hRhigh
    omega
  rw [hY] at hYsplit
  rw [hM] at hMsplit
  have hsum : R.toUInt32.toNat + radix * next.toNat =
      rd.toNat + carry.toNat + X.toNat * y.toNat + u.toNat * m.toNat := by
    rw [hnext]
    linear_combination hRsplit + hR + hYsplit + hMsplit
  refine ⟨hsum, ?_⟩
  rw [radix] at hsum hrd hcarry hYle hMle ⊢
  omega

theorem montyRow_value {X : UInt64} (hX : X.toNat < radix) (u : UInt32) (ys ms low : List UInt32)
    (top : UInt32) (tail : List UInt32) (carry : UInt64) (hms : ms.length = ys.length)
    (hlow : low.length = ys.length) (hcarry : carry.toNat < 2 * radix) :
    ∃ out, montyRow X u ys ms (low ++ top :: tail) carry = some (out ++ tail) ∧
      out.length = ys.length + 2 ∧
      value out = value (low ++ [top]) + X.toNat * value ys + u.toNat * value ms +
        carry.toNat := by
  induction ys generalizing ms low carry with
  | nil =>
    have hmsNil := eq_nil_of_length_eq_zero hms
    have hlowNil := eq_nil_of_length_eq_zero hlow
    subst hmsNil hlowNil
    have htop := toNat_lt_radix top
    have hR : (top.toUInt64 + carry).toNat = top.toNat + carry.toNat := by
      rw [UInt64.toNat_add, UInt32.toNat_toUInt64]
      rw [radix] at htop hcarry
      omega
    have hsplit := value_word (top.toUInt64 + carry)
    have hhigh : ((top.toUInt64 + carry) >>> 32).toUInt32.toNat =
        ((top.toUInt64 + carry) >>> 32).toNat := by
      apply toUInt32_of_lt
      rw [radix] at hsplit htop hcarry ⊢
      omega
    refine ⟨[(top.toUInt64 + carry).toUInt32, ((top.toUInt64 + carry) >>> 32).toUInt32], rfl,
      rfl, ?_⟩
    simp only [nil_append, value_cons, value_nil, Nat.mul_zero, Nat.add_zero, hhigh]
    rw [hsplit, hR]
  | cons y ys ih =>
    cases ms with
    | nil => cases hms
    | cons m ms =>
      cases low with
      | nil => cases hlow
      | cons rd low =>
        have hu := toNat_lt_radix u
        have hy := toNat_lt_radix y
        have hm := toNat_lt_radix m
        have hrd := toNat_lt_radix rd
        rw [← UInt32.toNat_toUInt64] at hu hy hm hrd
        obtain ⟨hdigit, hnext⟩ := montyDigit hX hu hy hm hrd hcarry
        obtain ⟨out, hout, hlength, hvalue⟩ :=
          ih ms low _ (Nat.succ.inj hms) (Nat.succ.inj hlow) hnext
        refine ⟨(rd.toUInt64 + carry + (X * y.toUInt64).toUInt32.toUInt64 +
          (u.toUInt64 * m.toUInt64).toUInt32.toUInt64).toUInt32 :: out, ?_, ?_, ?_⟩
        · rw [cons_append, montyRow, hout]
          rfl
        · rw [length_cons, hlength, length_cons]
        · rw [value_cons, hvalue, cons_append, value_cons, value_cons, value_cons]
          simp only [UInt32.toNat_toUInt64] at hdigit
          linear_combination hdigit

/-- The multiple of the modulus that is added makes the lowest digit zero. -/
theorem montyFactor (r0 y0 : UInt32) (X : UInt64) {m0 rho : UInt32}
    (hrho : (rho.toNat * m0.toNat + 1) % radix = 0) :
    (r0.toNat + X.toNat * y0.toNat +
      ((r0.toUInt64 + X * y0.toUInt64) * rho.toUInt64).toUInt32.toNat * m0.toNat) % radix = 0 := by
  have hfactor : ((r0.toUInt64 + X * y0.toUInt64) * rho.toUInt64).toUInt32.toNat ≡
      (r0.toNat + X.toNat * y0.toNat) * rho.toNat [MOD radix] := by
    have hdvd : radix ∣ 2 ^ 64 := ⟨2 ^ 32, by decide⟩
    have hword : ((r0.toUInt64 + X * y0.toUInt64) * rho.toUInt64).toNat ≡
        (r0.toNat + X.toNat * y0.toNat) * rho.toNat [MOD 2 ^ 64] := by
      refine (Nat.mod_modEq _ _).trans ?_
      refine Nat.ModEq.mul_right _ ((Nat.mod_modEq _ _).trans ?_)
      exact Nat.ModEq.add_left _ (Nat.mod_modEq _ _)
    exact (Nat.mod_modEq _ radix).trans (hword.of_dvd hdvd)
  have hsum : r0.toNat + X.toNat * y0.toNat +
      ((r0.toUInt64 + X * y0.toUInt64) * rho.toUInt64).toUInt32.toNat * m0.toNat ≡
      (r0.toNat + X.toNat * y0.toNat) * (rho.toNat * m0.toNat + 1) [MOD radix] := by
    have hadd := Nat.ModEq.add_left (r0.toNat + X.toNat * y0.toNat) (hfactor.mul_right m0.toNat)
    have hassoc : r0.toNat + X.toNat * y0.toNat +
        (r0.toNat + X.toNat * y0.toNat) * rho.toNat * m0.toNat =
        (r0.toNat + X.toNat * y0.toNat) * (rho.toNat * m0.toNat + 1) := by ring
    rwa [hassoc] at hadd
  rw [hsum, Nat.mul_mod, hrho, Nat.mul_zero, Nat.zero_mod]

theorem getD_zero_toNat (digits : List UInt32) :
    (digits.getD 0 0).toNat = value digits % radix := by
  rw [getD_toNat, Nat.pow_zero, Nat.div_one]

section Rows

variable {y m : List UInt32} {rho : UInt32} {len : Nat} (hy : y.length = len)
  (hm : m.length = len) (hrho : (rho.toNat * (m.getD 0 0).toNat + 1) % radix = 0)

include hy hm hrho

/-- A row adds multiples of `y` and `m` to the accumulator and drops a digit. -/
theorem montyRows_cons (x : UInt32) (xs : List UInt32) (b0 : UInt32) (hacc : acc.length = len + 1)
    (tail : List UInt32) :
    ∃ b0' acc', acc'.length = len + 1 ∧
      montyRows y m rho (x :: xs) (b0 :: (acc ++ tail)) =
        montyRows y m rho xs (b0' :: (acc' ++ tail)) ∧
      ∃ u < radix, radix * value acc' = value acc + x.toNat * value y + u * value m := by
  obtain ⟨low, top, rfl⟩ : ∃ low top, acc = low ++ [top] := by
    rcases eq_nil_or_concat acc with rfl | ⟨low, top, rfl⟩
    · cases hacc
    · exact ⟨low, top, concat_eq_append⟩
  have hlow : low.length = y.length := by
    rw [hy]
    simpa using hacc
  have hhead : ((low ++ [top] ++ tail).getD 0 0) = (low ++ [top]).getD 0 0 := by
    cases low <;> rfl
  have hX : x.toUInt64.toNat < radix := by
    exact toNat_lt_radix x
  generalize hu : ((((low ++ [top]).getD 0 0).toUInt64 + x.toUInt64 * (y.getD 0 0).toUInt64) *
    rho.toUInt64).toUInt32 = u
  obtain ⟨out, hout, hlength, hvalue⟩ := montyRow_value hX u y m low top tail 0 (hm.trans hy.symm)
    hlow (by decide)
  -- the digit that is dropped is zero
  have hdigit : value out % radix = 0 := by
    have hfactor := montyFactor ((low ++ [top]).getD 0 0) (y.getD 0 0) x.toUInt64 hrho
    rw [hu, getD_zero_toNat, getD_zero_toNat, getD_zero_toNat] at hfactor
    rw [hvalue]
    calc (value (low ++ [top]) + x.toNat * value y + u.toNat * value m) % radix
        = (value (low ++ [top]) % radix + x.toNat * (value y % radix) +
            u.toNat * (value m % radix)) % radix := by
          apply Nat.ModEq.add
          · exact Nat.ModEq.add (Nat.mod_modEq _ _).symm
              (Nat.ModEq.mul_left _ (Nat.mod_modEq _ _).symm)
          · exact Nat.ModEq.mul_left _ (Nat.mod_modEq _ _).symm
      _ = 0 := hfactor
  cases out with
  | nil => cases hlength
  | cons digit acc' =>
    rw [value_cons, Nat.add_mul_mod_self_left, Nat.mod_eq_of_lt (toNat_lt_radix digit)] at hdigit
    rw [value_cons, hdigit, Nat.zero_add] at hvalue
    refine ⟨digit, acc', ?_, ?_, u.toNat, toNat_lt_radix u, hvalue⟩
    · rw [hy] at hlength
      exact Nat.succ.inj hlength
    · rw [montyRows]
      have hdrop : List.drop 1 (b0 :: (low ++ [top] ++ tail)) = low ++ [top] ++ tail := rfl
      have happend : low ++ [top] ++ tail = low ++ top :: tail := by simp
      simp only [hdrop, hhead, hu]
      rw [happend, hout]
      rfl

theorem montyRows_value (xs : List UInt32) (b0 : UInt32) (hacc : acc.length = len + 1)
    (tail : List UInt32) :
    ∃ b0' acc', montyRows y m rho xs (b0 :: (acc ++ tail)) = some (b0' :: (acc' ++ tail)) ∧
      acc'.length = len + 1 ∧
      ∃ u < radix ^ xs.length,
        radix ^ xs.length * value acc' = value acc + value xs * value y + u * value m := by
  induction xs generalizing b0 acc with
  | nil => exact ⟨b0, acc, rfl, hacc, 0, by simp, by simp⟩
  | cons x xs ih =>
    obtain ⟨b1, acc1, hacc1, hstep, u, hu, hvalue⟩ :=
      montyRows_cons hy hm hrho x xs b0 hacc tail
    obtain ⟨b2, acc2, hrows, hacc2, u', hu', hvalue'⟩ := ih b1 hacc1
    refine ⟨b2, acc2, hstep.trans hrows, hacc2, u + radix * u', ?_, ?_⟩
    · rw [length_cons, Nat.pow_succ']
      have hle : radix * (u' + 1) ≤ radix * radix ^ xs.length := Nat.mul_le_mul_left _ hu'
      rw [Nat.mul_add] at hle
      omega
    · rw [length_cons, Nat.pow_succ', Nat.mul_assoc, hvalue', value_cons]
      linear_combination hvalue

end Rows

/-! ### Products -/

/-- Storage that a product may be written to: none, or large enough and zero
from the digit on that `reset` does not clear. -/
def Reusable (len : Nat) (storage : List UInt32) : Prop :=
  storage = [] ∨ (len + 2 ≤ storage.length ∧ value (storage.drop (len + 1)) = 0)

theorem reset_eq (hreusable : Reusable len storage) :
    ∃ k, reset storage (len + 1) = 0 :: (List.replicate (len + 1) 0 ++ List.replicate k 0) := by
  have hzeroes : ∀ n, len + 2 ≤ n → ∃ k, List.replicate n (0 : UInt32) =
      0 :: (List.replicate (len + 1) 0 ++ List.replicate k 0) := by
    intro n hn
    refine ⟨n - (len + 2), ?_⟩
    rw [replicate_append_replicate, ← replicate_succ]
    congr 1
    omega
  rcases hreusable with rfl | ⟨hlength, hzero⟩
  · rw [reset]
    exact hzeroes _ (by omega)
  · rw [reset, if_neg (by omega), eq_zero_of_value_eq_zero hzero,
      replicate_append_replicate]
    apply hzeroes
    rw [length_drop]
    omega

theorem padded_length {n : BigNum} (hle : n.length ≤ len) : (n.padded len).length = len := by
  rw [padded, length_append, length_replicate]
  exact Nat.add_sub_cancel' hle

theorem padded_value (n : BigNum) (len : Nat) : value (n.padded len) = n.magnitude := by
  rw [padded, value_append, value_replicate_zero, Nat.mul_zero, Nat.add_zero, magnitude]

/-- What a Montgomery product is. -/
structure IsProduct (m x y : BigNum) (r : BigNum) : Prop where
  pos : r.neg = false
  lt : r.magnitude < m.magnitude
  modEq : radix ^ m.length * r.magnitude ≡ x.magnitude * y.magnitude [MOD m.magnitude]
  length : r.length ≤ m.length

theorem Working.reduce_some {m : BigNum} {w : Working} (hmneg : m.neg = false) (hvalid : w.Valid 1)
    (hlength : m.length ≤ (w.digits.drop 1).length)
    (hlt : value (w.digits.drop 1) < 2 * m.magnitude) :
    ∃ w', w.reduce m = some w' ∧ w'.Valid 1 ∧
      w'.digits.length = w.digits.length ∧ value (w'.digits.drop 1) < m.magnitude ∧
      value (w'.digits.drop 1) ≡ value (w.digits.drop 1) [MOD m.magnitude] := by
  by_cases hge : m.magnitude ≤ value (w.digits.drop 1)
  · obtain ⟨w', hsub, hreduced⟩ := Working.sub_of_length hvalid hmneg hlength hge
    refine ⟨w', ?_, hreduced.valid, hreduced.length, ?_, ?_⟩
    · rw [Working.reduce, if_pos ((hvalid.ge_iff_le hmneg).mpr hge), hsub]
    · rw [hreduced.high]
      omega
    · rw [hreduced.high]
      exact (Nat.sub_modulus_modEq_iff hge).mpr rfl
  · refine ⟨w, ?_, hvalid, rfl, Nat.lt_of_not_le hge, rfl⟩
    rw [Working.reduce, if_neg (fun h => hge ((hvalid.ge_iff_le hmneg).mp h))]

theorem montyMul_some {m x y : BigNum} {rho : UInt32} (hmneg : m.neg = false)
    (hmpos : 0 < m.magnitude) (hrho : (rho.toNat * (m.digits.getD 0 0).toNat + 1) % radix = 0)
    (hx : x.length ≤ m.length) (hy : y.length ≤ m.length) (hle : y.magnitude ≤ m.magnitude)
    (hreusable : Reusable m.length storage) :
    ∃ r storage', montyMul storage x y m rho = some (r, storage') ∧ IsProduct m x y r ∧
      storage' ≠ [] ∧ Reusable m.length storage' := by
  have hmlength : 0 < m.length := length_pos_iff.mpr m.nonempty
  obtain ⟨k, hreset⟩ := reset_eq hreusable
  have hzeroes : (List.replicate (m.length + 1) (0 : UInt32)).length = m.length + 1 :=
    length_replicate
  obtain ⟨b0, acc, hrows, hacc, u, hu, hvalue⟩ := montyRows_value (padded_length hy) rfl hrho
    (x.padded m.length) 0 hzeroes (List.replicate k 0)
  rw [padded_length hx] at hu hvalue
  rw [padded_value, padded_value, value_replicate_zero, Nat.zero_add] at hvalue
  have hreduces : Reduces (radix ^ m.length) m.magnitude x.magnitude y.magnitude (value acc) :=
    ⟨u, hu, hvalue⟩
  have hxlt : x.magnitude < radix ^ m.length :=
    (magnitude_lt x).trans_le (Nat.pow_le_pow_right radix_pos hx)
  generalize hw : (⟨b0 :: (acc ++ List.replicate k 0), m.length + 2⟩ : Working) = w
  have hdigits : w.digits = b0 :: (acc ++ List.replicate k 0) := by rw [← hw]
  have hwlength : w.length = m.length + 2 := by rw [← hw]
  have hdrop : value (w.digits.drop 1) = value acc := by
    rw [hdigits, drop_one, tail_cons, value_append, value_replicate_zero, Nat.mul_zero,
      Nat.add_zero]
  have hsize : w.digits.length = m.length + 2 + k := by
    rw [hdigits, length_cons, length_append, length_replicate]
    omega
  have hvalid : w.Valid 1 := by
    refine ⟨by omega, by omega, ?_⟩
    rw [hwlength, value_drop, hdigits, value_cons, value_append, value_replicate_zero,
      Nat.mul_zero, Nat.add_zero]
    apply Nat.div_eq_of_lt
    have hb := toNat_lt_radix b0
    have haccLt := value_lt acc
    rw [hacc] at haccLt
    have hle : radix * (value acc + 1) ≤ radix * radix ^ (m.length + 1) :=
      Nat.mul_le_mul_left _ haccLt
    rw [Nat.mul_add] at hle
    rw [Nat.pow_succ']
    omega
  have hlt := hreduces.lt_two_mul hxlt hle hmpos
  have hmdigits : m.length ≤ (w.digits.drop 1).length := by
    rw [length_drop]
    omega
  obtain ⟨w', hreduce, hvalid', hsize', hsmall, hmod⟩ :=
    Working.reduce_some hmneg hvalid hmdigits (by rwa [hdrop])
  have hmagnitude : (w'.from 1).stripLz.magnitude = value (w'.digits.drop 1) := by
    rw [magnitude_stripLz, hvalid'.from_magnitude]
  refine ⟨(w'.from 1).stripLz, w'.digits, ?_, ⟨?_, ?_, ?_, ?_⟩, ?_, ?_⟩
  · rw [montyMul]
    simp only [hx, hy, hreset, hrows, Option.bind_eq_bind, Option.bind_some, hw,
      hreduce]
    rfl
  · exact stripLz_pos (view_neg _)
  · rw [hmagnitude]
    exact hsmall
  · rw [hmagnitude]
    rw [hdrop] at hmod
    exact (Nat.ModEq.mul_left _ hmod).trans hreduces.modEq
  · apply (stripped_stripLz _).length_le hmlength
    rw [hmagnitude]
    exact hsmall.trans (magnitude_lt m)
  · rw [← length_pos_iff]
    omega
  · refine Or.inr ⟨by omega, ?_⟩
    rw [Nat.add_comm, ← drop_drop, value_drop]
    exact Nat.div_eq_of_lt (hsmall.trans (magnitude_lt m))

/-! ### Odd moduli -/

theorem radix_pow (n : Nat) : radix ^ n = 2 ^ (32 * n) := by
  rw [Nat.pow_mul]
  rfl

section Odd

variable {m : BigNum} (hodd : m.isOdd = true)

include hodd

theorem odd_modulus : Nat.Coprime m.magnitude (radix ^ m.length) ∧
    ((montyRho (m.digits.getD 0 0).toUInt64).toNat * (m.digits.getD 0 0).toNat + 1) % radix = 0 := by
  have hdigit : (m.digits.getD 0 0).toNat % 2 = 1 := by
    have hne := of_decide_eq_true hodd
    by_contra heven
    apply hne
    apply UInt32.toNat.inj
    rw [UInt32.toNat_and]
    simp only [UInt32.reduceToNat, Nat.and_one_is_mod]
    omega
  have hrho := montyRho_spec (b := (m.digits.getD 0 0).toUInt64)
    (by rw [UInt32.toNat_toUInt64]; exact toNat_lt_radix _) (by rwa [UInt32.toNat_toUInt64])
  refine ⟨?_, hrho⟩
  rw [getD_zero_toNat] at hdigit
  have hdvd : 2 ∣ radix := ⟨2147483648, rfl⟩
  rw [Nat.mod_mod_of_dvd _ hdvd] at hdigit
  rw [radix_pow]
  apply Nat.Coprime.pow_right
  rw [Nat.coprime_two_right, Nat.odd_iff]
  exact hdigit

/-- Storage that earlier products modulo `m` leave. -/
inductive LeftBy (m : BigNum) : List UInt32 → Prop
  | unused : LeftBy m []
  | product {storage storage' : List UInt32} {x y r : BigNum} (hstorage : LeftBy m storage)
      (hlt : y.magnitude < m.magnitude)
      (hrun : montyMul storage x y m (montyRho (m.digits.getD 0 0).toUInt64) =
        some (r, storage')) : LeftBy m storage'

theorem LeftBy.reusable (hmneg : m.neg = false) (hleft : LeftBy m storage) :
    Reusable m.length storage := by
  induction hleft with
  | unused => exact Or.inl rfl
  | @product storage storage' x y r hstorage hlt hrun ih =>
    have hlengths : x.length ≤ m.length ∧ y.length ≤ m.length := by
      by_contra hnot
      simp [montyMul, hnot] at hrun
    obtain ⟨r', kept, hkept, -, -, hreusable⟩ := montyMul_some hmneg (Nat.zero_lt_of_lt hlt)
      (odd_modulus hodd).2 hlengths.1 hlengths.2 hlt.le ih
    rw [hrun] at hkept
    cases hkept
    exact hreusable

/-- The product modulo an odd number, into storage of earlier ones. -/
theorem montyMul_unique {x y : BigNum} (hmneg : m.neg = false) (hx : x.length ≤ m.length)
    (hy : y.length ≤ m.length) (hlt : y.magnitude < m.magnitude) (hleft : LeftBy m storage) :
    ∃ rho r storage', rho = montyRho (m.digits.getD 0 0).toUInt64 ∧
      (rho.toNat * (m.digits.getD 0 0).toNat + 1) % 2 ^ 32 = 0 ∧
      montyMul storage x y m rho = some (r, storage') ∧
      ∀ n : Nat, r.toInt = n ↔ n < m.magnitude ∧
        2 ^ (32 * m.length) * n ≡ x.magnitude * y.magnitude [MOD m.magnitude] := by
  obtain ⟨hcoprime, hrho⟩ := odd_modulus hodd
  obtain ⟨r, storage', hrun, hproduct, -⟩ := montyMul_some hmneg (Nat.zero_lt_of_lt hlt) hrho hx hy
    hlt.le (hleft.reusable hodd hmneg)
  refine ⟨_, r, storage', rfl, hrho, hrun, fun n => ?_⟩
  have hnat : r.toInt = r.magnitude := by simp [toInt, hproduct.pos]
  rw [hnat, Nat.cast_inj, ← radix_pow]
  constructor
  · rintro rfl
    exact ⟨hproduct.lt, hproduct.modEq⟩
  · rintro ⟨hsmall, hn⟩
    have hsame := (hproduct.modEq.trans hn.symm).cancel_left_of_coprime hcoprime
    exact hsame.eq_of_lt_of_lt hproduct.lt hsmall

end Odd

theorem montyMul_twice : LeftBy (view [7]) [0, 4, 0, 0, 0, 0] ∧
    ∃ r storage', montyMul [0, 4, 0, 0, 0, 0] (view [3]) (view [5]) (view [7]) (montyRho 7) =
      some (r, storage') ∧ r.toInt = 2 := by
  have hleft : LeftBy (view [7]) [0, 4, 0, 0, 0, 0] :=
    .product (x := view [2]) (y := view [1]) (r := view [4]) .unused (by decide) (by decide +kernel)
  obtain ⟨_, r, storage', rfl, -, hrun, hunique⟩ := montyMul_unique (m := view [7])
    (x := view [3]) (y := view [5]) (by decide) rfl (by decide) (by decide) (by decide) hleft
  exact ⟨hleft, r, storage', hrun, (hunique 2).mpr ⟨by decide, by decide⟩⟩

/-- A product modulo a longer number leaves a digit that the next one adds. -/
theorem montyMul_after_longer :
    ((montyMul [] (view [0, 1]) (view [1, 3]) (view [1, 5]) (montyRho 1)).bind fun earlier =>
      montyMul earlier.2 (view [2]) (view [1]) (view [7]) (montyRho 7)).map (·.1.digits) = some [1] ∧
      ¬2 ^ 32 * 1 ≡ 2 * 1 [MOD 7] := by
  decide +kernel

end AllJoyn.Crypto.BigNum
