import AllJoyn.Crypto.BigNum.DivisionLoop

/-!
The quotient and the remainder that `BigNum::div` returns, and the divisions
that it does not survive.
-/

namespace AllJoyn.Crypto.BigNum

open Lib.Limbs Lib.LongDivision List Nat Option

/-! ### Short divisors and short numbers -/

theorem divideByDigit_length (y : UInt32) (xs : List UInt32) (carry : UInt64) :
    (divideByDigit y xs carry).1.length = xs.length := by
  induction xs generalizing carry with
  | nil => rfl
  | cons x xs ih => simp [divideByDigit, ih]

theorem divideByDigit_value {y : UInt32} (hpos : 0 < y.toNat) (xs : List UInt32) (carry : UInt64)
    (hcarry : carry.toNat < y.toNat) :
    value (divideByDigit y xs carry).1.reverse * y.toNat + (divideByDigit y xs carry).2.toNat =
        carry.toNat * radix ^ xs.length + value xs.reverse ∧
      (divideByDigit y xs carry).2.toNat < y.toNat := by
  induction xs generalizing carry with
  | nil => simpa [divideByDigit] using hcarry
  | cons x xs ih =>
    have hx := toNat_lt_radix x
    have hy := toNat_lt_radix y
    have hshift : (carry <<< 32).toNat = carry.toNat * radix := by
      rw [UInt64.toNat_shiftLeft]
      simp only [UInt64.reduceToNat, Nat.reduceMod]
      rw [radix] at hy ⊢
      omega
    have hword : (x.toUInt64 + carry <<< 32).toNat = x.toNat + carry.toNat * radix := by
      rw [UInt64.toNat_add, hshift, UInt32.toNat_toUInt64]
      rw [radix] at hx hy ⊢
      omega
    generalize hX : x.toUInt64 + carry <<< 32 = X at hword
    have hquotient : (X / y.toUInt64).toNat = X.toNat / y.toNat := by
      rw [UInt64.toNat_div, UInt32.toNat_toUInt64]
    have hdigit : (X / y.toUInt64).toUInt32.toNat = X.toNat / y.toNat := by
      rw [UInt64.toNat_toUInt32, hquotient]
      apply mod_eq_of_lt
      apply Nat.div_lt_of_lt_mul
      have hle : (carry.toNat + 1) * radix ≤ y.toNat * radix := Nat.mul_le_mul_right _ hcarry
      rw [Nat.add_mul] at hle
      have hradix : radix = 2 ^ 32 := rfl
      rw [← hradix]
      omega
    have hproduct : (X / y.toUInt64 * y.toUInt64).toNat = X.toNat / y.toNat * y.toNat := by
      rw [UInt64.toNat_mul, hquotient, UInt32.toNat_toUInt64, mod_eq_of_lt]
      exact (div_mul_le_self _ _).trans_lt X.toNat_lt
    have hrest : (X - X / y.toUInt64 * y.toUInt64).toNat = X.toNat % y.toNat := by
      rw [UInt64.toNat_sub_of_le]
      · have hmod := div_add_mod' X.toNat y.toNat
        omega
      · rw [UInt64.le_iff_toNat_le, hproduct]
        exact div_mul_le_self _ _
    obtain ⟨hvalue, hlast⟩ := ih (X - X / y.toUInt64 * y.toUInt64)
      (by rw [hrest]; exact mod_lt _ hpos)
    refine ⟨?_, ?_⟩
    · simp only [divideByDigit, hX]
      rw [reverse_cons, reverse_cons, value_concat, value_concat, hdigit,
        length_reverse, length_reverse, divideByDigit_length, length_cons]
      have hmod := div_add_mod' X.toNat y.toNat
      rw [hrest] at hvalue
      rw [hword] at hmod
      rw [hword] at hvalue ⊢
      linear_combination hvalue + radix ^ xs.length * hmod
    · simp only [divideByDigit, hX]
      exact hlast

theorem digitsWord_toNat {digits : List UInt32} (hlength : digits.length ≤ 2) :
    (digitsWord digits).toNat = value digits := by
  have hword : ∀ low high : UInt32,
      (low.toUInt64 + high.toUInt64 <<< 32).toNat = low.toNat + radix * high.toNat := by
    intro low high
    have hlow := toNat_lt_radix low
    have hhigh := toNat_lt_radix high
    rw [UInt64.toNat_add, UInt64.toNat_shiftLeft, UInt32.toNat_toUInt64, UInt32.toNat_toUInt64]
    simp only [UInt64.reduceToNat, Nat.reduceMod]
    rw [radix] at hlow hhigh ⊢
    omega
  rcases digits with _ | ⟨low, _ | ⟨high, _ | ⟨third, rest⟩⟩⟩
  · rfl
  · simp [digitsWord]
  · simpa [digitsWord] using hword low high
  · simp only [length_cons] at hlength
    omega

theorem value_wordDigits (w : UInt64) : value (wordDigits w) = w.toNat := by
  have hword := value_word w
  rw [wordDigits]
  have hhigh : (w >>> 32).toUInt32.toNat = (w >>> 32).toNat := by
    apply toUInt32_of_lt
    have hlt := w.toNat_lt
    rw [radix] at hword ⊢
    omega
  split
  · simpa [hhigh] using hword
  · rename_i hzero
    rw [not_not.mp hzero] at hword
    simpa using hword

/-! ### Long division -/

section Normalised

variable {x y : BigNum} {k room : Nat} (hxs : x.Stripped) (hy : y.neg = false)
  (hys : y.Stripped) (hlength : y.length = k + 2) (hhalf : radix ^ (k + 2) ≤ 2 * y.magnitude)
  (hle : y.magnitude ≤ x.magnitude) (hroom : x.length < room + (k + 2))

include hhalf in
theorem normalised_ge : radix ^ (k + 1) ≤ y.magnitude := by
  have htwo : 2 * radix ^ (k + 1) ≤ radix ^ (k + 2) := by
    rw [Nat.mul_comm]
    exact Nat.mul_le_mul_left _ (by decide)
  omega

include hle hhalf in
theorem dividend_length : k + 2 ≤ x.length := by
  have hge := (normalised_ge hhalf).trans hle
  have hpow : radix ^ (k + 1) < radix ^ x.length := hge.trans_lt (magnitude_lt x)
  exact (Nat.pow_lt_pow_iff_right one_lt_radix).mp hpow

include hy hys hhalf hle hroom

/-- The main loop starts with the leading digits of the dividend reduced, and
with an array that holds the quotient. -/
theorem reduceTop_divided :
    ∃ w count, reduceTop y (x.length - 1 - (k + 1)) (value x.digits + 1) ⟨x.digits, x.length⟩ 0 =
        some (w, count) ∧
      Divided x.magnitude y.magnitude (x.length - 1 - (k + 1)) w
        ((List.replicate room 0).set (x.length - 1 - (k + 1)) count) ∧
      x.magnitude / y.magnitude <
        radix ^ (if count ≠ 0 then x.length - 1 - (k + 1) + 1
          else max 1 (x.length - 1 - (k + 1))) := by
  have hxlength := dividend_length hhalf hle
  have hsome : 0 < y.magnitude := (Nat.pow_pos radix_pos).trans_le (normalised_ge hhalf)
  generalize hd : x.length - 1 - (k + 1) = d
  have hsum : x.length = d + (k + 2) := by omega
  have hvalid : Working.Valid ⟨x.digits, x.length⟩ d := by
    refine ⟨?_, le_refl _, ?_⟩
    · show d < x.length
      omega
    · show value (x.digits.drop x.digits.length) = 0
      rw [drop_length, value_nil]
  have htop : value (x.digits.drop d) < radix ^ (k + 2) := by
    have hlt := value_lt (x.digits.drop d)
    have hdrop : (x.digits.drop d).length = k + 2 := by
      rw [length_drop]
      have hdigits : x.digits.length = d + (k + 2) := hsum
      omega
    rwa [hdrop] at hlt
  have hdrop : value (x.digits.drop d) = x.magnitude / radix ^ d := value_drop _ _
  have hfuel : value (x.digits.drop d) < value x.digits + 1 := by
    rw [hdrop]
    exact lt_succ_of_le (Nat.div_le_self _ _)
  obtain ⟨w, count, hreduce, hcount, hreduced⟩ :=
    reduceTop_some hvalid hy hys hsome (htop.trans_le hhalf) _ hfuel
  have hcount' : count.toNat = x.magnitude / radix ^ d / y.magnitude := by rw [hcount, hdrop]
  refine ⟨w, count, hreduce, ⟨hreduced.valid, ?_, ?_, ?_, ?_⟩, ?_⟩
  · rw [hreduced.high]
    rw [hdrop]
    have hmod := div_add_mod' (x.magnitude / radix ^ d) y.magnitude
    omega
  · rw [hreduced.low]
    exact value_take x.digits d
  · rw [drop_set, if_neg (Nat.lt_irrefl d), Nat.sub_self, drop_replicate]
    obtain ⟨more, hmore⟩ : ∃ more, room - d = more + 1 := ⟨room - d - 1, by omega⟩
    rw [hmore, replicate_succ, set_cons_zero, value_cons, value_replicate_zero,
      Nat.mul_zero, Nat.add_zero, hcount']
  · rw [length_set, length_replicate]
    omega
  · rw [Nat.div_lt_iff_lt_mul hsome]
    split
    · calc x.magnitude < radix ^ x.length := magnitude_lt x
        _ = radix ^ d * radix ^ (k + 2) := by rw [hsum, Nat.pow_add]
        _ ≤ radix ^ d * (2 * y.magnitude) := Nat.mul_le_mul_left _ hhalf
        _ ≤ radix ^ d * (radix * y.magnitude) :=
          Nat.mul_le_mul_left _ (Nat.mul_le_mul_right _ (by decide))
        _ = radix ^ (d + 1) * y.magnitude := by rw [Nat.pow_succ, Nat.mul_assoc]
    · rename_i hzero
      have hcountZero : x.magnitude / radix ^ d / y.magnitude = 0 := by
        rw [← hcount', not_not.mp hzero]
        rfl
      rw [Nat.div_div_eq_div_mul, div_eq_zero_iff_lt (Nat.mul_pos (Nat.pow_pos radix_pos)
        hsome)] at hcountZero
      exact hcountZero.trans_le (Nat.mul_le_mul_right _
        (Nat.pow_le_pow_right radix_pos (le_max_right _ _)))

include hlength

/-- The division succeeds if all digits are estimated right, and is then right. -/
theorem divideNormalised_spec :
    ((divideNormalised x y (k + 1) room).isSome ↔
      ∀ d, d + (k + 2) < x.length → ExactDigit x.magnitude y.magnitude k d) ∧
    ∀ result ∈ divideNormalised x y (k + 1) room, value result.1 = x.magnitude / y.magnitude ∧
      value (result.2.digits.take result.2.length) = x.magnitude % y.magnitude := by
  obtain ⟨w, count, hreduce, hdivided, hquotient⟩ :=
    reduceTop_divided hy hys hhalf hle hroom
  obtain ⟨hsome, hloop⟩ := divideDigits_spec hy hlength (normalised_ge hhalf) hdivided
  simp only [divideNormalised, hreduce, bind_eq_bind, bind_some]
  refine ⟨?_, ?_⟩
  · refine Iff.trans ?_ (hsome.trans
      ⟨fun hall d hd => hall d (by omega), fun hall e he => hall e (by omega)⟩)
    generalize divideDigits y (k + 1) _ w _ = result
    cases result <;> simp
  · rintro _ hmem
    obtain ⟨⟨w', q⟩, hresult, ⟨⟩⟩ := bind_eq_some_iff.mp hmem
    have hfinal := hloop _ hresult
    have hvalue := hfinal.quotient
    have hrest := hfinal.high
    rw [drop_zero, Nat.pow_zero, Nat.div_one] at hvalue hrest
    rw [value_take, hvalue, mod_eq_of_lt hquotient, value_take,
      mod_eq_of_lt (value_lt_of_drop_eq_zero hfinal.valid.tail), hrest]
    exact ⟨rfl, rfl⟩

end Normalised

/-- The quotient digits that the main loop finds are all estimated right. -/
def ExactDigits (x y : BigNum) : Prop :=
  ∀ d, d + y.length < (x.normalise (norm y)).length →
    ExactDigit (x.magnitude * 2 ^ (norm y).toNat) (y.magnitude * 2 ^ (norm y).toNat)
      (y.length - 2) d

section Long

variable {x y : BigNum} {k : Nat} (hx : x.neg = false) (hxs : x.Stripped) (hy : y.neg = false)
  (hys : y.Stripped) (hlength : y.length = k + 2) (hle : y.magnitude ≤ x.magnitude)

include hx hxs hy hys hlength hle

theorem normalise_operands :
    (y.normalise (norm y)).length = k + 2 ∧
      radix ^ (k + 2) ≤ 2 * (y.normalise (norm y)).magnitude ∧
      (y.normalise (norm y)).magnitude ≤ (x.normalise (norm y)).magnitude ∧
      (x.normalise (norm y)).length < x.length - y.length + 2 + (k + 2) := by
  have hge : radix ^ (k + 1) ≤ y.magnitude := by
    rcases hys with hone | hge
    · omega
    · rwa [hlength] at hge
  obtain ⟨hshift, hhalf, hfull⟩ := norm_spec hlength hge
  obtain ⟨hxm, hxst, -⟩ := normalise_spec hx hxs (norm y)
  obtain ⟨hym, hyst, -⟩ := normalise_spec hy hys (norm y)
  have hpow : 0 < 2 ^ (norm y).toNat := Nat.pow_pos (by decide)
  have hyge : radix ^ (k + 1) ≤ (y.normalise (norm y)).magnitude := by
    rw [hym]
    exact hge.trans (Nat.le_mul_of_pos_right _ hpow)
  refine ⟨hyst.length_eq hyge (hym.trans_lt hfull), hym ▸ hhalf, ?_, ?_⟩
  · rw [hxm, hym]
    exact Nat.mul_le_mul_right _ hle
  · have hsmall : 2 ^ (norm y).toNat < radix := Nat.pow_lt_pow_right (by decide) hshift
    have hxlt : (x.normalise (norm y)).magnitude < radix ^ (x.length + 1) := by
      rw [hxm]
      exact Nat.mul_lt_mul'' (magnitude_lt x) hsmall
    have hlen := hxst.length_le (succ_pos _) hxlt
    omega

theorem longDivision_spec :
    ((longDivision x y).isSome ↔ ExactDigits x y) ∧
    ∀ result ∈ longDivision x y, value result.1 = x.magnitude / y.magnitude ∧
      result.2.magnitude = x.magnitude % y.magnitude := by
  obtain ⟨hylength, hhalf, hle', hroom⟩ := normalise_operands hx hxs hy hys hlength hle
  obtain ⟨hxm, hxst, -⟩ := normalise_spec hx hxs (norm y)
  obtain ⟨hym, hyst, hyneg⟩ := normalise_spec hy hys (norm y)
  have hpow : 0 < 2 ^ (norm y).toNat := Nat.pow_pos (by decide)
  have ht : y.length - 1 = k + 1 := by omega
  have hge : radix ^ (k + 1) ≤ y.magnitude := by
    rcases hys with hone | hge
    · omega
    · rwa [hlength] at hge
  obtain ⟨hsome, hright⟩ := divideNormalised_spec hyneg hyst hylength hhalf hle' hroom
  rw [hxm, hym, Nat.mul_div_mul_right _ _ hpow, mul_mod_mul_right] at hright
  rw [longDivision, ht]
  generalize divideNormalised _ _ _ _ = divided at hsome hright ⊢
  have hexact : divided.isSome ↔ ExactDigits x y := by
    rw [hsome, ExactDigits, hlength, Nat.add_sub_cancel, hxm, hym]
  cases divided with
  | none => exact ⟨hexact, by simp⟩
  | some result =>
    obtain ⟨q, w⟩ := result
    obtain ⟨hq, hw⟩ := hright _ rfl
    obtain ⟨r, hr, hvalue, -⟩ := denormalise_some
      (view_neg (w.digits.take w.length)) (norm_spec hlength hge).1
    rw [view_magnitude, hw, Nat.mul_div_cancel _ hpow] at hvalue
    rw [bind_eq_bind, bind_some]
    dsimp only
    rw [hr]
    refine ⟨iff_of_true rfl (hexact.mp rfl), ?_⟩
    intro found hfound
    obtain rfl := Option.some.inj hfound
    exact ⟨hq, (magnitude_stripLz r).trans hvalue⟩

end Long

/-! ### Division -/

variable {n : BigNum}

theorem Stripped.pow_le (hn : n.Stripped) (hpos : 0 < n.magnitude) :
    radix ^ (n.length - 1) ≤ n.magnitude := by
  rcases hn with hone | hle
  · rw [hone]
    exact hpos
  · exact hle

/-- The digits of a divisor of up to two digits are all that the estimate looks
at. -/
theorem exactDigits_of_short {x y : BigNum} (hpos : 0 < y.magnitude) (hshort : y.length ≤ 2) :
    ExactDigits x y := by
  intro d _
  have hpow : 0 < y.magnitude * 2 ^ (norm y).toNat := Nat.mul_pos hpos (Nat.pow_pos (by decide))
  have hlt := dividend_lt radix_pos hpow (x.magnitude * 2 ^ (norm y).toNat) d
  have hdigit := Nat.div_lt_of_lt_mul hlt
  rw [ExactDigit, estimate, Nat.sub_eq_zero_of_le hshort, Nat.pow_zero, Nat.div_one, Nat.div_one]
  exact min_eq_right (le_sub_one_of_lt hdigit)

/-- No quotient digit is found for a dividend that is not larger. -/
theorem exactDigits_of_le {x y : BigNum} (hx : x.neg = false) (hxs : x.Stripped)
    (hys : y.Stripped) (hpos : 0 < y.magnitude) (hle : x.magnitude ≤ y.magnitude) :
    ExactDigits x y := by
  intro d hd
  have hylength : 0 < y.length := length_pos_iff.mpr y.nonempty
  have hsucc : y.length = y.length - 1 + 1 := by omega
  obtain ⟨-, -, hfull⟩ := norm_spec hsucc (hys.pow_le hpos)
  obtain ⟨hxm, hxst, -⟩ := normalise_spec hx hxs (norm y)
  have hxlt : (x.normalise (norm y)).magnitude < radix ^ y.length := by
    rw [hxm]
    rw [← hsucc] at hfull
    exact (Nat.mul_le_mul_right _ hle).trans_lt hfull
  have hxlength := hxst.length_le hylength hxlt
  omega

/-- The quotient and the remainder are those of the integers. -/
def Divides (elided : Bool) (x y : BigNum) : Prop :=
  ∃ q r, div elided x y = some (q, r) ∧ x.toInt = q.toInt * y.toInt + r.toInt ∧
    0 ≤ r.toInt ∧ r.toInt < y.toInt

theorem abs_of_pos (hpos : n.neg = false) (elided : Bool) : n.abs elided = n.stripLz := by
  rw [abs, hpos, if_neg Bool.false_ne_true]

theorem pos_of_toInt_pos (hn : 0 < n.toInt) : n.neg = false ∧ 0 < n.magnitude := by
  rw [toInt] at hn
  split at hn
  · omega
  · rename_i hneg
    exact ⟨Bool.eq_false_of_not_eq_true hneg, by omega⟩

section Div

variable {elided : Bool} {x y : BigNum} (hx : x.neg = false) (hy : y.neg = false)
  (hpos : 0 < y.magnitude)

include hx hy hpos

theorem divides_of_digits {q : List UInt32} {rem : BigNum}
    (hdiv : div elided x y =
      some (stripLz { view q with neg := false }, signedRemainder false rem))
    (hq : value q = x.magnitude / y.magnitude)
    (hr : rem.magnitude = x.magnitude % y.magnitude) : Divides elided x y := by
  have hquotient : (stripLz { view q with neg := false }).toInt = value q := by
    rw [toInt_stripLz]
    show ((view q).magnitude : Int) = _
    rw [view_magnitude]
  have hremainder : (signedRemainder false rem).toInt = rem.magnitude := rfl
  refine ⟨_, _, hdiv, ?_, ?_, ?_⟩
  · rw [toInt_of_pos hx, toInt_of_pos hy, hquotient, hremainder, hq, hr]
    exact_mod_cast (div_add_mod' x.magnitude y.magnitude).symm
  · rw [hremainder]
    exact Int.natCast_nonneg _
  · rw [hremainder, toInt_of_pos hy, hr]
    exact_mod_cast mod_lt _ hpos

theorem div_short (hgt : compare x.stripLz y.stripLz = .gt) (hone : y.stripLz.length = 1) :
    Divides elided x y := by
  obtain ⟨digit, hdigit⟩ := length_eq_one_iff.mp hone
  have hvalue : y.magnitude = digit.toNat := by
    rw [← magnitude_stripLz, magnitude, hdigit]
    simp
  have hdivide := divideByDigit_value (hvalue ▸ hpos) x.stripLz.digits.reverse 0 (hvalue ▸ hpos)
  generalize hresult : divideByDigit digit x.stripLz.digits.reverse 0 = result at hdivide
  obtain ⟨hsum, hlt⟩ := hdivide
  have hxm : value x.stripLz.digits = x.magnitude := magnitude_stripLz x
  rw [reverse_reverse, hxm, ← hvalue, UInt64.toNat_zero, Nat.zero_mul, Nat.zero_add] at hsum
  rw [← hvalue] at hlt
  have hcarry : result.2.toUInt32.toNat = result.2.toNat := by
    apply toUInt32_of_lt
    rw [hvalue] at hlt
    exact hlt.trans (toNat_lt_radix digit)
  have hrem : (ofUInt32 result.2.toUInt32).magnitude = result.2.toNat := by
    rw [magnitude, ofUInt32]
    simp [hcarry]
  have hquot : x.magnitude / y.magnitude = value result.1.reverse ∧
      x.magnitude % y.magnitude = result.2.toNat := by
    rw [Nat.div_mod_unique hpos]
    exact ⟨by rw [← hsum]; ring, hlt⟩
  refine divides_of_digits hx hy hpos ?_ hquot.1.symm (hrem.trans hquot.2.symm)
  rw [div]
  simp [abs_of_pos hx, abs_of_pos hy, hgt, hone, hx, hy, hdigit, hresult]

theorem div_words (hgt : compare x.stripLz y.stripLz = .gt) (hone : y.stripLz.length ≠ 1)
    (hshort : x.stripLz.length ≤ 2) : Divides elided x y := by
  have hlt : y.magnitude < x.magnitude := by
    have hcompare := gt_iff (stripLz_pos hx) (stripLz_pos hy)
    rw [magnitude_stripLz, magnitude_stripLz] at hcompare
    exact hcompare.mp (decide_eq_true hgt)
  have hyshort : y.stripLz.length ≤ 2 := by
    apply (stripped_stripLz y).length_le (by decide)
    rw [magnitude_stripLz]
    calc y.magnitude < x.magnitude := hlt
      _ = x.stripLz.magnitude := (magnitude_stripLz x).symm
      _ < radix ^ x.stripLz.length := magnitude_lt _
      _ ≤ radix ^ 2 := Nat.pow_le_pow_right radix_pos hshort
  have hX : (digitsWord x.stripLz.digits).toNat = x.magnitude :=
    (digitsWord_toNat hshort).trans (magnitude_stripLz x)
  have hY : (digitsWord y.stripLz.digits).toNat = y.magnitude :=
    (digitsWord_toNat hyshort).trans (magnitude_stripLz y)
  generalize hXw : digitsWord x.stripLz.digits = X at hX
  generalize hYw : digitsWord y.stripLz.digits = Y at hY
  have hQ : (X / Y).toNat = x.magnitude / y.magnitude := by rw [UInt64.toNat_div, hX, hY]
  have hproduct : (Y * (X / Y)).toNat = y.magnitude * (x.magnitude / y.magnitude) := by
    rw [UInt64.toNat_mul, hQ, hY, mod_eq_of_lt]
    exact (mul_div_le _ _).trans_lt (hX ▸ X.toNat_lt)
  have hR : (X - Y * (X / Y)).toNat = x.magnitude % y.magnitude := by
    rw [UInt64.toNat_sub_of_le]
    · have hmod := div_add_mod x.magnitude y.magnitude
      omega
    · rw [UInt64.le_iff_toNat_le, hproduct, hX]
      exact mul_div_le _ _
  refine divides_of_digits hx hy hpos ?_ ((value_wordDigits _).trans hQ)
    ((view_magnitude _).trans ((value_wordDigits _).trans hR))
  rw [div]
  simp [abs_of_pos hx, abs_of_pos hy, hgt, if_neg hone, if_pos hshort, hx, hy, hXw, hYw]

theorem div_long (hgt : compare x.stripLz y.stripLz = .gt) (hone : y.stripLz.length ≠ 1)
    (hlong : ¬x.stripLz.length ≤ 2) :
    Divides elided x y ↔ ExactDigits x.stripLz y.stripLz := by
  have hlt : y.stripLz.magnitude < x.stripLz.magnitude :=
    (gt_iff (stripLz_pos hx) (stripLz_pos hy)).mp (decide_eq_true hgt)
  have hsome : 0 < y.stripLz.length := length_pos_iff.mpr y.stripLz.nonempty
  obtain ⟨k, hk⟩ : ∃ k, y.stripLz.length = k + 2 := ⟨y.stripLz.length - 2, by omega⟩
  have hdiv : div elided x y = (longDivision x.stripLz y.stripLz).bind fun result =>
      some (stripLz { view result.1 with neg := false }, signedRemainder false result.2) := by
    rw [div]
    simp only [abs_of_pos hx, abs_of_pos hy, hgt, if_neg hone, if_neg hlong, hx, hy]
    rfl
  obtain ⟨hexact, hright⟩ := longDivision_spec (stripLz_pos hx) (stripped_stripLz x)
    (stripLz_pos hy) (stripped_stripLz y) hk hlt.le
  rw [← hexact, isSome_iff_exists]
  constructor
  · rintro ⟨q, r, hresult, -⟩
    rw [hdiv] at hresult
    obtain ⟨result, hlongDiv, -⟩ := bind_eq_some_iff.mp hresult
    exact ⟨result, hlongDiv⟩
  · rintro ⟨result, hlongDiv⟩
    obtain ⟨hq, hr⟩ := hright _ hlongDiv
    rw [magnitude_stripLz, magnitude_stripLz] at hq hr
    refine divides_of_digits hx hy hpos ?_ hq hr
    rw [hdiv, hlongDiv]
    rfl

end Div

theorem divides_of_short {elided : Bool} {x y : BigNum} (hx : 0 ≤ x.toInt) (hy : 0 < y.toInt)
    (hshort : compare x.stripLz y.stripLz = .gt → y.stripLz.length ≠ 1 →
      x.stripLz.length ≤ 2) : Divides elided x y := by
  obtain ⟨hyneg, hypos⟩ := pos_of_toInt_pos hy
  by_cases hneg : x.neg = true
  · -- a zero whose sign is set
    have hzero : x.magnitude = 0 := by
      rw [toInt_of_neg hneg] at hx
      omega
    have hxi := toInt_eq_zero hzero
    have hcompare : compare (x.abs elided) (y.abs elided) = .lt := by
      rw [abs, hneg, if_pos rfl, abs_of_pos hyneg]
      have hcomparable : Comparable (x.negate elided) y.stripLz := by
        intro _ hfalse
        rw [toInt_stripLz] at hfalse
        omega
      rw [(compare_iff _ _).mpr hcomparable, toInt_negate, toInt_stripLz, hxi]
      exact compare_lt_iff_lt.mpr hy
    refine ⟨zero, x, ?_, ?_, hx, ?_⟩
    · rw [div]
      simp only [hcompare]
    · rw [hxi]
      simp
    · rwa [hxi]
  · have hxneg := Bool.eq_false_of_not_eq_true hneg
    have hcompared := compares_of_pos (stripLz_pos hxneg) y.stripLz
    simp only [Compares, toInt_stripLz] at hcompared
    rcases hcompare : compare x.stripLz y.stripLz with - | - | -
    · refine ⟨zero, x, ?_, by simp, hx, hcompared.1.mp (decide_eq_true hcompare)⟩
      rw [div]
      simp only [abs_of_pos hxneg, abs_of_pos hyneg, hcompare]
    · refine ⟨ofUInt32 1, zero, ?_, ?_, le_refl _, hy⟩
      · rw [div]
        simp only [abs_of_pos hxneg, abs_of_pos hyneg, hcompare]
      · have hunit : (ofUInt32 1).toInt = 1 := rfl
        rw [hcompared.2.2.2.2.1.mp (decide_eq_true hcompare), hunit, toInt_zero]
        ring
    · by_cases hone : y.stripLz.length = 1
      · exact div_short hxneg hyneg hypos hcompare hone
      · exact div_words hxneg hyneg hypos hcompare hone (hshort hcompare hone)

/-- A nonnegative number is divided by a positive one without a failed assertion
exactly if no quotient digit is estimated too large. -/
theorem div_correct_iff (elided : Bool) (x y : BigNum) (hx : 0 ≤ x.toInt) (hy : 0 < y.toInt) :
    Divides elided x y ↔ ExactDigits x.stripLz y.stripLz := by
  obtain ⟨hyneg, hypos⟩ := pos_of_toInt_pos hy
  have hypos' : 0 < y.stripLz.magnitude := by rwa [magnitude_stripLz]
  have hxplain := plain_stripLz hx
  by_cases hgt : compare x.stripLz y.stripLz = .gt
  · by_cases hone : y.stripLz.length = 1
    · exact iff_of_true (divides_of_short hx hy fun _ hnot => absurd hone hnot)
        (exactDigits_of_short hypos' (by omega))
    · have hlt : y.stripLz.magnitude < x.stripLz.magnitude :=
        (gt_iff hxplain.pos (stripLz_pos hyneg)).mp (decide_eq_true hgt)
      by_cases hshort : x.stripLz.length ≤ 2
      · refine iff_of_true (divides_of_short hx hy fun _ _ => hshort) ?_
        apply exactDigits_of_short hypos'
        apply (stripped_stripLz y).length_le (by decide)
        exact hlt.trans ((magnitude_lt _).trans_le (Nat.pow_le_pow_right radix_pos hshort))
      · have hxpos : 0 < x.toInt := by
          rw [← toInt_stripLz, toInt_of_pos hxplain.pos]
          omega
        exact div_long (pos_of_toInt_pos hxpos).1 hyneg hypos hgt hone hshort
  · refine iff_of_true (divides_of_short hx hy fun hgt' => absurd hgt' hgt) ?_
    apply exactDigits_of_le hxplain.pos hxplain.stripped (stripped_stripLz y) hypos'
    by_contra hlt
    exact hgt (of_decide_eq_true ((gt_iff hxplain.pos (stripLz_pos hyneg)).mpr (not_le.mp hlt)))

/-- A dividend of three digits goes through the main loop. -/
theorem div_two_digit_divisor : 0 ≤ (view [5, 7, 9]).toInt ∧ 0 < (view [3, 1]).toInt ∧
    Divides true (view [5, 7, 9]) (view [3, 1]) := by
  have hx : 0 ≤ (view [5, 7, 9]).toInt := by decide
  have hy : 0 < (view [3, 1]).toInt := by decide
  exact ⟨hx, hy, (div_correct_iff true _ _ hx hy).mpr
    (exactDigits_of_short (by decide) (by decide))⟩

/-- The estimated digit is `0xFFFFFFFF` and one too large: the product is larger
than the dividend by `0xFFFFFFFF`. -/
theorem div_assertion_fails :
    0 ≤ (view [0, 0, 0x80000000, 0x7FFFFFFF]).toInt ∧ 0 < (view [1, 0, 0x80000000]).toInt ∧
      div true (view [0, 0, 0x80000000, 0x7FFFFFFF]) (view [1, 0, 0x80000000]) = none ∧
      div false (view [0, 0, 0x80000000, 0x7FFFFFFF]) (view [1, 0, 0x80000000]) = none := by
  decide +kernel

end AllJoyn.Crypto.BigNum
