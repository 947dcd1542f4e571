import AllJoyn.Crypto.BigNum.Basic
import Mathlib.Tactic.LinearCombination

/-!
What the loops over the digits compute, on the numbers that the digits stand
for.
-/

namespace AllJoyn.Crypto.BigNum

open Lib.Limbs List Nat UInt32

variable {xs ys : List UInt32}

/-! ### Sums and differences -/

theorem carry_le_one (n : UInt64) (hn : n.toNat < 2 * radix) : (n >>> 32).toNat ≤ 1 := by
  have hword := value_word n
  rw [radix] at hn hword
  omega

theorem value_head_tail (ys : List UInt32) :
    value ys = (ys.headD 0).toNat + radix * value ys.tail := by
  cases ys <;> simp

theorem addDigits_cons (x : UInt32) (xs ys : List UInt32) (carry : UInt64) :
    addDigits (x :: xs) ys carry =
      (x.toUInt64 + (ys.headD 0).toUInt64 + carry).toUInt32 ::
        addDigits xs ys.tail ((x.toUInt64 + (ys.headD 0).toUInt64 + carry) >>> 32) := by
  cases ys <;> simp [addDigits]

/-- A sum has the value it should, and a digit more than its longer operand only
for a carry. -/
theorem addDigits_spec (xs ys : List UInt32) (carry : UInt64) (hlength : ys.length ≤ xs.length)
    (hcarry : carry.toNat ≤ 1) :
    value (addDigits xs ys carry) = value xs + value ys + carry.toNat ∧
      ((addDigits xs ys carry).length = xs.length ∨
        (addDigits xs ys carry).length = xs.length + 1 ∧
          radix ^ xs.length ≤ value (addDigits xs ys carry)) := by
  induction xs generalizing ys carry with
  | nil =>
    have hnil : ys = [] := eq_nil_of_length_eq_zero (le_zero.mp hlength)
    subst hnil
    rw [addDigits]
    split
    · have hdigit : carry.toUInt32.toNat = carry.toNat := by
        rw [UInt64.toNat_toUInt32]
        omega
      have hsome : carry.toNat ≠ 0 := fun hzero => by simp_all [← UInt64.toNat_inj]
      simp [hdigit]
      omega
    · simp_all
  | cons x xs ih =>
    have hx := toNat_lt_radix x
    have hy := toNat_lt_radix (ys.headD 0)
    have hsum : (x.toUInt64 + (ys.headD 0).toUInt64 + carry).toNat =
        x.toNat + (ys.headD 0).toNat + carry.toNat := by
      simp only [UInt64.toNat_add, toNat_toUInt64]
      rw [radix] at hx hy
      omega
    rw [addDigits_cons]
    generalize x.toUInt64 + (ys.headD 0).toUInt64 + carry = n at hsum ⊢
    obtain ⟨hvalue, hdigits⟩ := ih ys.tail (n >>> 32)
      (by rw [length_tail]; exact sub_le_of_le_add hlength)
      (carry_le_one n (by omega))
    have hword := value_word n
    rw [value_cons, value_cons, length_cons, length_cons, pow_succ',
      value_head_tail ys]
    refine ⟨by rw [hvalue]; linarith, hdigits.imp (congrArg (· + 1)) ?_⟩
    rintro ⟨hone, hle⟩
    exact ⟨congrArg (· + 1) hone, le_add_left (Nat.mul_le_mul_left radix hle)⟩

theorem subDigit_value (x y : UInt32) (borrow : UInt64) (hborrow : borrow.toNat ≤ 1) :
    (x.toUInt64 - y.toUInt64 - borrow).toUInt32.toNat + y.toNat + borrow.toNat =
        x.toNat + radix * ((x.toUInt64 - y.toUInt64 - borrow) >>> 63).toNat ∧
      ((x.toUInt64 - y.toUInt64 - borrow) >>> 63).toNat ≤ 1 := by
  have hx := x.toNat_lt
  have hy := y.toNat_lt
  have hshift : ((x.toUInt64 - y.toUInt64 - borrow) >>> 63).toNat =
      (x.toUInt64 - y.toUInt64 - borrow).toNat / 9223372036854775808 := by
    simp [shiftRight_eq_div_pow]
  rw [hshift, UInt64.toNat_toUInt32]
  simp only [UInt64.toNat_sub, toNat_toUInt64, radix]
  omega

theorem subDigits_cons (x : UInt32) (xs ys : List UInt32) (borrow : UInt64) :
    subDigits (x :: xs) ys borrow =
      let n := x.toUInt64 - (ys.headD 0).toUInt64 - borrow
      (n.toUInt32 :: (subDigits xs ys.tail (n >>> 63)).1, (subDigits xs ys.tail (n >>> 63)).2) := by
  cases ys <;> simp [subDigits]

theorem subDigits_value (xs ys : List UInt32) (borrow : UInt64) (hlength : ys.length ≤ xs.length)
    (hborrow : borrow.toNat ≤ 1) :
    value (subDigits xs ys borrow).1 + value ys + borrow.toNat =
        value xs + radix ^ xs.length * (subDigits xs ys borrow).2.toNat ∧
      (subDigits xs ys borrow).2.toNat ≤ 1 := by
  induction xs generalizing ys borrow with
  | nil =>
    have hnil : ys = [] := eq_nil_of_length_eq_zero (le_zero.mp hlength)
    subst hnil
    simpa [subDigits] using hborrow
  | cons x xs ih =>
    obtain ⟨hdigit, hnext⟩ := subDigit_value x (ys.headD 0) borrow hborrow
    obtain ⟨hrest, hlast⟩ := ih ys.tail _
      (by rw [length_tail]; exact sub_le_of_le_add hlength) hnext
    rw [subDigits_cons]
    refine ⟨?_, hlast⟩
    rw [value_cons, value_cons, length_cons, value_head_tail ys]
    linear_combination hdigit + radix * hrest

theorem subDigits_value_of_le (hlength : ys.length ≤ xs.length) (hle : value ys ≤ value xs) :
    value (subDigits xs ys 0).1 = value xs - value ys ∧ (subDigits xs ys 0).2.toNat = 0 := by
  obtain ⟨hvalue, hlast⟩ := subDigits_value xs ys 0 hlength (by decide)
  have hlt := value_lt (subDigits xs ys 0).1
  rw [subDigits_length] at hlt
  rcases le_one_iff_eq_zero_or_eq_one.mp hlast with hzero | hone
  · rw [hzero, UInt64.toNat_zero] at hvalue
    exact ⟨by omega, hzero⟩
  · rw [hone, UInt64.toNat_zero] at hvalue
    omega

/-- The difference from a larger number is short of a power of the radix. -/
theorem subDigits_value_of_lt (hlength : ys.length ≤ xs.length) (hlt : value xs < value ys) :
    0 < value (subDigits xs ys 0).1 := by
  obtain ⟨hvalue, hlast⟩ := subDigits_value xs ys 0 hlength (by decide)
  have hys := (value_lt ys).trans_le (Nat.pow_le_pow_right radix_pos hlength)
  rcases le_one_iff_eq_zero_or_eq_one.mp hlast with hzero | hone
  · rw [hzero] at hvalue
    omega
  · rw [hone, UInt64.toNat_zero] at hvalue
    omega

/-! ### Comparison -/

theorem value_concat_lt {x y : UInt32} (hlength : xs.length = ys.length) (hlt : x < y) :
    value (xs ++ [x]) < value (ys ++ [y]) := by
  have hxs := value_lt xs
  have hle : x.toNat + 1 ≤ y.toNat := hlt
  rw [value_concat, value_concat, ← hlength]
  calc value xs + radix ^ xs.length * x.toNat
      < radix ^ xs.length + radix ^ xs.length * x.toNat := Nat.add_lt_add_right hxs _
    _ = radix ^ xs.length * (x.toNat + 1) := by ring
    _ ≤ radix ^ xs.length * y.toNat := Nat.mul_le_mul_left _ hle
    _ ≤ value ys + radix ^ xs.length * y.toNat := Nat.le_add_left _ _

theorem compareTop_reverse (hlength : xs.length = ys.length) :
    compareTop xs.reverse ys.reverse = Ord.compare (value xs) (value ys) := by
  induction xs using List.reverseRecOn generalizing ys with
  | nil =>
    have hnil : ys = [] := eq_nil_of_length_eq_zero hlength.symm
    subst hnil
    rfl
  | append_singleton xs x ih =>
    rcases eq_nil_or_concat ys with rfl | ⟨ys, y, rfl⟩
    · simp at hlength
    · have hlen : xs.length = ys.length := by simpa using hlength
      rw [reverse_append, concat_eq_append, reverse_append]
      simp only [reverse_singleton, singleton_append, compareTop]
      rcases Std.lt_trichotomy x y with hlt | heq | hgt
      · rw [if_neg (UInt32.ne_of_lt hlt), if_neg (UInt32.lt_asymm hlt)]
        exact (compare_lt_iff_lt.mpr (value_concat_lt hlen hlt)).symm
      · subst heq
        rw [ih hlen, value_concat, value_concat, hlen]
        simp [Ord.compare, compareOfLessAndEq]
      · rw [if_neg (UInt32.ne_of_lt hgt).symm, if_pos hgt]
        exact (compare_gt_iff_gt.mpr (value_concat_lt hlen.symm hgt)).symm

theorem differing_spec (hlength : xs.length = ys.length) :
    (differing xs.reverse ys.reverse = 0 ∧ xs = ys) ∨
      ∃ (low low' high : List UInt32) (x y : UInt32), xs = low ++ x :: high ∧
        ys = low' ++ y :: high ∧ x ≠ y ∧ low.length = low'.length ∧
        differing xs.reverse ys.reverse = low.length + 1 := by
  induction xs using List.reverseRecOn generalizing ys with
  | nil =>
    have hnil : ys = [] := eq_nil_of_length_eq_zero hlength.symm
    subst hnil
    exact Or.inl ⟨rfl, rfl⟩
  | append_singleton xs x ih =>
    rcases eq_nil_or_concat ys with rfl | ⟨ys, y, rfl⟩
    · simp at hlength
    · have hlen : xs.length = ys.length := by simpa using hlength
      rw [concat_eq_append, reverse_append, reverse_append]
      simp only [reverse_singleton, singleton_append, differing]
      by_cases hxy : x = y
      · subst hxy
        rw [if_pos rfl]
        rcases ih hlen with ⟨hzero, heq⟩ | ⟨low, low', high, a, b, hxs, hys, hab, hlow, hdiff⟩
        · exact Or.inl ⟨hzero, by rw [heq]⟩
        · refine Or.inr ⟨low, low', high ++ [x], a, b, ?_, ?_, hab, hlow, hdiff⟩
          · rw [hxs, append_assoc, cons_append]
          · rw [hys, append_assoc, cons_append]
      · rw [if_neg hxy]
        exact Or.inr ⟨xs, ys, [], x, y, rfl, rfl, hxy, hlen, by simp⟩

/-! ### Shifts -/

theorem or_eq_add_of_lt {high low : UInt32} {shift : Nat} (hlow : low.toNat < 2 ^ shift) (hhigh : 2 ^ shift ∣ high.toNat) :
    (high ||| low).toNat = high.toNat + low.toNat := by
  obtain ⟨k, hk⟩ := hhigh
  rw [UInt32.toNat_or, hk, two_pow_add_eq_or_of_lt hlow]

theorem shiftDigits_value {shift : UInt32} (hshift : shift.toNat < 32) (ys : List UInt32)
    (ext : UInt32) (hext : ext.toNat < 2 ^ shift.toNat) :
    value (shiftDigits shift ys ext) = value ys * 2 ^ shift.toNat + ext.toNat := by
  induction ys generalizing ext with
  | nil => simp [shiftDigits]
  | cons y ys ih =>
    have hy : y.toNat < 2 ^ 32 := y.toNat_lt
    have hpos : 0 < 2 ^ shift.toNat := Nat.pow_pos (by decide)
    have hpow : 2 ^ (32 - shift.toNat) * 2 ^ shift.toNat = 2 ^ 32 := by
      rw [← Nat.pow_add]
      congr 1
      omega
    have hle : 2 ^ shift.toNat ≤ 2 ^ 32 := Nat.pow_le_pow_right (by decide) (by omega)
    have hproduct : y.toNat * 2 ^ shift.toNat < 2 ^ 32 * 2 ^ shift.toNat :=
      Nat.mul_lt_mul_of_pos_right hy hpos
    have hword : (y.toUInt64 <<< shift.toUInt64).toNat = y.toNat * 2 ^ shift.toNat := by
      rw [UInt64.toNat_shiftLeft, toNat_toUInt64, toNat_toUInt64,
        mod_eq_of_lt (by omega : shift.toNat < 64), shiftLeft_eq, mod_eq_of_lt]
      calc y.toNat * 2 ^ shift.toNat < 2 ^ 32 * 2 ^ shift.toNat := hproduct
        _ ≤ 2 ^ 32 * 2 ^ 32 := Nat.mul_le_mul_left _ hle
    have hsplit := value_word (y.toUInt64 <<< shift.toUInt64)
    have hhigh : ((y.toUInt64 <<< shift.toUInt64) >>> 32).toNat < 2 ^ shift.toNat := by
      rw [UInt64.toNat_shiftRight]
      simp only [UInt64.reduceToNat, Nat.reduceMod, shiftRight_eq_div_pow]
      rw [Nat.div_lt_iff_lt_mul (by decide)]
      linarith [hproduct]
    have hext' : ((y.toUInt64 <<< shift.toUInt64) >>> 32).toUInt32.toNat =
        ((y.toUInt64 <<< shift.toUInt64) >>> 32).toNat := by
      rw [UInt64.toNat_toUInt32, mod_eq_of_lt]
      exact hhigh.trans_le hle
    have hdvd : 2 ^ shift.toNat ∣ (y.toUInt64 <<< shift.toUInt64).toUInt32.toNat := by
      rw [UInt64.toNat_toUInt32, hword, ← hpow, mul_mod_mul_right]
      exact Nat.dvd_mul_left _ _
    rw [shiftDigits, value_cons, or_eq_add_of_lt hext hdvd, ih _ (by rwa [hext']), hext',
      value_cons]
    rw [hword] at hsplit
    linear_combination hsplit

/-! ### Products -/

theorem toUInt32_of_lt {carry : UInt64} (hcarry : carry.toNat < radix) :
    carry.toUInt32.toNat = carry.toNat := by
  exact mod_eq_of_lt hcarry

theorem toNat_mul_of_lt {x y : UInt64} (hx : x.toNat < radix) (hy : y.toNat < radix) :
    (x * y).toNat = x.toNat * y.toNat ∧ x.toNat * y.toNat ≤ (radix - 1) * (radix - 1) := by
  have hle : x.toNat * y.toNat ≤ (radix - 1) * (radix - 1) :=
    Nat.mul_le_mul (le_sub_one_of_lt hx) (le_sub_one_of_lt hy)
  refine ⟨?_, hle⟩
  rw [UInt64.toNat_mul]
  rw [radix] at hle
  omega

theorem mulDigit_value (x y s : UInt32) {carry : UInt64} (hcarry : carry.toNat < radix) :
    (x.toUInt64 * y.toUInt64 + s.toUInt64 + carry).toUInt32.toNat +
        radix * ((x.toUInt64 * y.toUInt64 + s.toUInt64 + carry) >>> 32).toNat =
        x.toNat * y.toNat + s.toNat + carry.toNat ∧
      ((x.toUInt64 * y.toUInt64 + s.toUInt64 + carry) >>> 32).toNat < radix := by
  have hs := toNat_lt_radix s
  obtain ⟨hproduct, hle⟩ := toNat_mul_of_lt (x := x.toUInt64) (y := y.toUInt64)
    (toNat_lt_radix x) (toNat_lt_radix y)
  rw [toNat_toUInt64, toNat_toUInt64] at hproduct hle
  have hsplit := value_word (x.toUInt64 * y.toUInt64 + s.toUInt64 + carry)
  rw [UInt64.toNat_add, UInt64.toNat_add, toNat_toUInt64] at hsplit
  rw [radix] at hcarry hs hle hsplit ⊢
  omega

theorem mulDigits_value (b : UInt32) (vs : List UInt32) (carry : UInt64)
    (hcarry : carry.toNat < radix) :
    value (mulDigits b vs carry) = value vs * b.toNat + carry.toNat := by
  induction vs generalizing carry with
  | nil =>
    have hdigit := toUInt32_of_lt hcarry
    simp [mulDigits, hdigit]
  | cons v vs ih =>
    obtain ⟨hdigit, hnext⟩ := mulDigit_value v b 0 hcarry
    have hzero : (0 : UInt32).toUInt64 = 0 := rfl
    rw [hzero, UInt64.add_zero] at hdigit hnext
    rw [mulDigits, value_cons, ih _ hnext, value_cons]
    rw [UInt32.toNat_zero] at hdigit
    linear_combination hdigit

/-- A row of the product: the multiple of `ys` is added to the digits of the
result, and its last carry becomes the digit behind them. -/
theorem mulRow_value (x : UInt32) (ys low : List UInt32) (old : UInt32) (high : List UInt32)
    (carry : UInt64) (hlength : low.length = ys.length) (hcarry : carry.toNat < radix) :
    ∃ row, mulRow x ys (low ++ old :: high) carry = row ++ high ∧ row.length = ys.length + 1 ∧
      value row = x.toNat * value ys + value low + carry.toNat := by
  induction ys generalizing low carry with
  | nil =>
    have hnil : low = [] := eq_nil_of_length_eq_zero hlength
    subst hnil
    refine ⟨[carry.toUInt32], rfl, rfl, ?_⟩
    have hdigit := toUInt32_of_lt hcarry
    simp [hdigit]
  | cons y ys ih =>
    cases low with
    | nil => cases hlength
    | cons s low =>
      obtain ⟨hdigit, hnext⟩ := mulDigit_value x y s hcarry
      obtain ⟨row, hrow, hrowLength, hrowValue⟩ := ih low _ (Nat.succ.inj hlength) hnext
      refine ⟨(x.toUInt64 * y.toUInt64 + s.toUInt64 + carry).toUInt32 :: row, ?_,
        by rw [length_cons, hrowLength, length_cons], ?_⟩
      · rw [cons_append, mulRow, hrow, cons_append]
      · rw [value_cons, hrowValue, value_cons, value_cons]
        linear_combination hdigit

theorem mulRows_value (xs b low : List UInt32) (hlength : low.length = b.length) :
    value (mulRows xs b (low ++ List.replicate xs.length 0)) = value xs * value b + value low := by
  induction xs generalizing low with
  | nil => simp [mulRows]
  | cons x xs ih =>
    obtain ⟨row, hrow, hrowLength, hrowValue⟩ :=
      mulRow_value x b low 0 (List.replicate xs.length 0) 0 hlength radix_pos
    cases row with
    | nil => cases hrowLength
    | cons digit row =>
      rw [length_cons, replicate_succ, mulRows, hrow, cons_append]
      rw [value_cons, ih row (Nat.succ.inj hrowLength), value_cons]
      rw [value_cons] at hrowValue
      simp only [UInt64.toNat_zero] at hrowValue
      linear_combination hrowValue

end AllJoyn.Crypto.BigNum
