import Mathlib.Data.List.DropRight
import Mathlib.Data.UInt
import Mathlib.Tactic.Ring
import Mathlib.Tactic.Linarith

/-!
Numbers as lists of 32-bit digits, least significant first, and the loops that
run over such lists with a carry or a borrow in a 64-bit word.
-/

namespace AllJoyn.Lib.Limbs

open List Nat

def radix : Nat := 4294967296

theorem radix_pos : 0 < radix := by decide

theorem one_lt_radix : 1 < radix := by decide

/-- The number that digits stand for. -/
def value : List UInt32 → Nat
  | [] => 0
  | digit :: digits => digit.toNat + radix * value digits

@[simp]
theorem value_nil : value [] = 0 := rfl

@[simp]
theorem value_cons (digit : UInt32) (digits : List UInt32) :
    value (digit :: digits) = digit.toNat + radix * value digits := rfl

theorem toNat_lt_radix (digit : UInt32) : digit.toNat < radix := digit.toNat_lt

theorem value_append (low high : List UInt32) :
    value (low ++ high) = value low + radix ^ low.length * value high := by
  induction low with
  | nil => simp
  | cons digit low ih =>
    rw [cons_append, value_cons, value_cons, ih, length_cons]
    ring

variable (digits : List UInt32) (n : Nat)

theorem value_concat (top : UInt32) :
    value (digits ++ [top]) = value digits + radix ^ digits.length * top.toNat := by
  rw [value_append]
  simp

theorem value_lt : value digits < radix ^ digits.length := by
  induction digits with
  | nil => simp
  | cons digit digits ih =>
    have hdigit := toNat_lt_radix digit
    have hle : radix * (value digits + 1) ≤ radix * radix ^ digits.length :=
      Nat.mul_le_mul_left _ ih
    rw [value_cons, length_cons, Nat.pow_succ']
    rw [Nat.mul_add] at hle
    omega

@[simp]
theorem value_replicate_zero : value (List.replicate n 0) = 0 := by
  induction n with
  | zero => rfl
  | succ n ih => simp [replicate_succ, ih]

theorem value_take_add_drop (hle : n ≤ digits.length) :
    value digits = value (digits.take n) + radix ^ n * value (digits.drop n) := by
  have hsplit := value_append (digits.take n) (digits.drop n)
  rwa [take_append_drop, length_take, Nat.min_eq_left hle] at hsplit

theorem value_take : value (digits.take n) = value digits % radix ^ n := by
  rcases Nat.le_total n digits.length with hle | hle
  · have hlt := value_lt (digits.take n)
    rw [length_take, Nat.min_eq_left hle] at hlt
    rw [value_take_add_drop digits n hle, add_mul_mod_self_left, mod_eq_of_lt hlt]
  · rw [take_of_length_le hle, mod_eq_of_lt]
    exact (value_lt digits).trans_le (Nat.pow_le_pow_right radix_pos hle)

theorem value_drop : value (digits.drop n) = value digits / radix ^ n := by
  have hpos : 0 < radix ^ n := Nat.pow_pos radix_pos
  rcases Nat.le_total n digits.length with hle | hle
  · have hlt := value_lt (digits.take n)
    rw [length_take, Nat.min_eq_left hle] at hlt
    rw [value_take_add_drop digits n hle, add_mul_div_left _ _ hpos, div_eq_of_lt hlt,
      Nat.zero_add]
  · rw [drop_eq_nil_of_le hle, div_eq_of_lt, value_nil]
    exact (value_lt digits).trans_le (Nat.pow_le_pow_right radix_pos hle)

theorem eq_zero_of_value_eq_zero {digits : List UInt32} (hzero : value digits = 0) :
    digits = List.replicate digits.length 0 := by
  induction digits with
  | nil => rfl
  | cons digit digits ih =>
    rw [value_cons] at hzero
    have hdigit : digit.toNat = 0 := by omega
    have htail : radix * value digits = 0 := by omega
    have hrest := ih ((Nat.mul_eq_zero.mp htail).resolve_left (by decide))
    have hhead : digit = 0 := by
      apply UInt32.toNat.inj
      rw [hdigit]
      rfl
    rw [length_cons, replicate_succ, ← hrest, hhead]

/-! ### Leading zeroes -/

/-- Digits without leading zeroes. -/
def strip (digits : List UInt32) : List UInt32 := digits.rdropWhile (· == 0)

theorem strip_concat_zero : strip (digits ++ [0]) = strip digits := by
  rw [strip, rdropWhile_concat_pos _ _ _ (by rfl), strip]

variable {top : UInt32}

theorem strip_concat (htop : top ≠ 0) : strip (digits ++ [top]) = digits ++ [top] := by
  rw [strip]
  simpa using htop

@[simp]
theorem value_strip : value (strip digits) = value digits := by
  induction digits using List.reverseRecOn with
  | nil => rfl
  | append_singleton digits top ih =>
    by_cases htop : top = 0
    · rw [htop, strip_concat_zero, ih, value_concat]
      simp
    · rw [strip_concat digits htop]

theorem strip_length_le : (strip digits).length ≤ digits.length :=
  (List.rdropWhile_prefix _ _).length_le

theorem pow_le_value_concat (htop : top ≠ 0) : radix ^ digits.length ≤ value (digits ++ [top]) := by
  have hpos : 0 < top.toNat := by
    rcases Nat.eq_zero_or_pos top.toNat with hzero | hpos
    · exact absurd (UInt32.toNat.inj hzero) htop
    · exact hpos
  rw [value_concat]
  calc radix ^ digits.length = radix ^ digits.length * 1 := (Nat.mul_one _).symm
    _ ≤ radix ^ digits.length * top.toNat := Nat.mul_le_mul_left _ hpos
    _ ≤ value digits + radix ^ digits.length * top.toNat := Nat.le_add_left _ _

theorem pow_le_value_strip (hsome : strip digits ≠ []) :
    radix ^ ((strip digits).length - 1) ≤ value digits := by
  induction digits using List.reverseRecOn with
  | nil => exact absurd rfl hsome
  | append_singleton digits top ih =>
    by_cases htop : top = 0
    · subst htop
      rw [strip_concat_zero] at hsome ⊢
      rw [← value_strip, strip_concat_zero, value_strip]
      exact ih hsome
    · rw [strip_concat digits htop]
      simpa using pow_le_value_concat digits htop

theorem strip_eq_nil {digits : List UInt32} : strip digits = [] ↔ value digits = 0 := by
  constructor
  · intro hnil
    rw [← value_strip, hnil, value_nil]
  · intro hzero
    by_contra hsome
    have hle := pow_le_value_strip digits hsome
    have hpos : 0 < radix ^ ((strip digits).length - 1) := Nat.pow_pos radix_pos
    omega

theorem value_lt_of_strip_length_lt {xs ys : List UInt32}
    (hlt : (strip xs).length < (strip ys).length) : value xs < value ys := by
  have hsome : strip ys ≠ [] := by
    intro hnil
    rw [hnil] at hlt
    cases hlt
  calc value xs = value (strip xs) := (value_strip xs).symm
    _ < radix ^ (strip xs).length := value_lt _
    _ ≤ radix ^ ((strip ys).length - 1) := Nat.pow_le_pow_right radix_pos (by omega)
    _ ≤ value ys := pow_le_value_strip ys hsome

/-! ### The digits of a 64-bit word -/

theorem value_word (word : UInt64) :
    word.toUInt32.toNat + radix * (word >>> 32).toNat = word.toNat := by
  have hshift : (word >>> 32).toNat = word.toNat / radix := by
    simp [radix, shiftRight_eq_div_pow]
  rw [hshift]
  exact mod_add_div word.toNat radix

end AllJoyn.Lib.Limbs
