import AllJoyn.Crypto.BigNum.Division

/-!
The main loop of `BigNum::div`. An estimated quotient digit is never too small;
where it is too large, the subtraction that follows fails on its assertion.
-/

namespace AllJoyn.Crypto.BigNum

open Lib.Limbs Lib.LongDivision List Nat UInt32

variable {n : BigNum} {d u : Nat} {w : Working} {q : List UInt32} {x : Working}

/-! ### Numbers that are not negative -/

variable {a : BigNum}

theorem compares_of_pos (ha : a.neg = false) (b : BigNum) : Compares a b := by
  rw [compares_iff, compare_iff, Comparable, ha]
  intro hfalse
  cases hfalse

section Positive

variable {a b : BigNum} (ha : a.neg = false) (hb : b.neg = false)

include ha hb

theorem ge_iff : a.ge b = true ↔ b.magnitude ≤ a.magnitude := by
  rw [(compares_of_pos ha b).2.2.2.1, toInt_of_pos ha, toInt_of_pos hb]
  omega

theorem gt_iff : a.gt b = true ↔ b.magnitude < a.magnitude := by
  rw [(compares_of_pos ha b).2.1, toInt_of_pos ha, toInt_of_pos hb]
  omega

theorem lt_iff : a.lt b = true ↔ a.magnitude < b.magnitude := by
  rw [(compares_of_pos ha b).1, toInt_of_pos ha, toInt_of_pos hb]
  omega

end Positive

variable (digits : List UInt32)

@[simp]
theorem view_neg : (view digits).neg = false := by
  rw [view]
  split <;> rfl

@[simp]
theorem view_magnitude : (view digits).magnitude = value digits := by
  rw [view]
  split
  · rfl
  · rename_i hnil
    rw [not_not.mp hnil]
    rfl

theorem natAbs_toInt (n : BigNum) : n.toInt.natAbs = n.magnitude := by
  rw [toInt]
  split <;> simp

theorem magnitude_mulDigit (a : BigNum) (b : UInt32) :
    (a.mulDigit b false).magnitude = a.magnitude * b.toNat := by
  have habs := congrArg Int.natAbs (toInt_mulDigit a b false)
  simpa [Int.natAbs_mul, natAbs_toInt] using habs

theorem stripLz_pos (hpos : n.neg = false) : n.stripLz.neg = false := by
  rw [stripLz]
  split
  · exact hpos
  · rfl

/-- No sign and no leading zeroes. -/
structure Plain (n : BigNum) : Prop where
  pos : n.neg = false
  stripped : n.Stripped

theorem plain_stripLz (hnonneg : 0 ≤ n.toInt) : Plain n.stripLz := by
  refine ⟨?_, stripped_stripLz n⟩
  by_cases hzero : n.magnitude = 0
  · rw [stripLz_of_zero hzero]
    rfl
  · rw [stripLz_neg hzero]
    by_contra hneg
    rw [toInt_of_neg (Bool.eq_true_of_not_eq_false hneg)] at hnonneg
    omega

theorem mulDigit_stripLz (a : BigNum) (b : UInt32) (bneg : Bool) :
    ∃ product, a.mulDigit b bneg = stripLz product := by
  rw [mulDigit]
  split
  · exact ⟨_, rfl⟩
  · split
    · exact ⟨_, rfl⟩
    · split
      · exact ⟨_, rfl⟩
      · exact ⟨zero, rfl⟩

theorem plain_mulDigit (ha : a.neg = false) (b : UInt32) : Plain (a.mulDigit b false) := by
  have hnonneg : 0 ≤ (a.mulDigit b false).toInt := by
    rw [toInt_mulDigit, toInt_of_pos ha, if_neg Bool.false_ne_true]
    positivity
  obtain ⟨product, hproduct⟩ := mulDigit_stripLz a b false
  rw [hproduct, toInt_stripLz] at hnonneg
  exact hproduct ▸ plain_stripLz hnonneg

variable {k : Nat}

theorem Stripped.length_le (hn : n.Stripped) (hk : 0 < k) (hlt : n.magnitude < radix ^ k) :
    n.length ≤ k := by
  rcases hn with hone | hle
  · omega
  · have hpow : radix ^ (n.length - 1) < radix ^ k := hle.trans_lt hlt
    have hexp := (Nat.pow_lt_pow_iff_right one_lt_radix).mp hpow
    omega

theorem Stripped.length_eq (hn : n.Stripped) (hge : radix ^ k ≤ n.magnitude)
    (hlt : n.magnitude < radix ^ (k + 1)) : n.length = k + 1 := by
  have hpow : radix ^ k < radix ^ n.length := hge.trans_lt (magnitude_lt n)
  have hexp := (Nat.pow_lt_pow_iff_right one_lt_radix).mp hpow
  have hle := hn.length_le (succ_pos k) hlt
  omega

theorem getD_toNat (i : Nat) :
    (digits.getD i 0).toNat = value digits / radix ^ i % radix := by
  have hdrop := value_drop digits i
  rw [← hdrop, getD_eq_getElem?_getD, ← List.head?_drop]
  cases digits.drop i with
  | nil => simp
  | cons digit rest =>
    rw [value_cons, add_mul_mod_self_left, mod_eq_of_lt (toNat_lt_radix digit)]
    rfl

/-! ### The dividend in place -/

/-- From the digit `d` on there is a number, and behind its length are zeroes. -/
structure Working.Valid (x : Working) (d : Nat) : Prop where
  lower : d < x.length
  upper : x.length ≤ x.digits.length
  tail : value (x.digits.drop x.length) = 0

theorem value_lt_of_drop_eq_zero {digits : List UInt32} (htail : value (digits.drop k) = 0) :
    value digits < radix ^ k := by
  rw [value_drop] at htail
  exact (div_eq_zero_iff_lt (Nat.pow_pos radix_pos)).mp htail

theorem Working.Valid.drop_lt (hvalid : x.Valid d) :
    value (x.digits.drop d) < radix ^ (x.length - d) := by
  apply value_lt_of_drop_eq_zero
  rw [drop_drop]
  have hlength : d + (x.length - d) = x.length := by
    have hlower := hvalid.lower
    omega
  rw [hlength]
  exact hvalid.tail

theorem Working.Valid.from_magnitude (hvalid : x.Valid d) :
    (x.from d).magnitude = value (x.digits.drop d) := by
  rw [Working.from, view_magnitude, value_take]
  exact mod_eq_of_lt hvalid.drop_lt

theorem Working.Valid.ge_iff_le (hvalid : x.Valid d) (hpos : n.neg = false) :
    (x.from d).ge n = true ↔ n.magnitude ≤ value (x.digits.drop d) := by
  have hfrom : (x.from d).neg = false := view_neg _
  rw [ge_iff hfrom hpos, hvalid.from_magnitude]

theorem value_drop_strippedLength : value (digits.drop (strippedLength digits)) = 0 := by
  rw [value_drop]
  apply div_eq_of_lt
  calc value digits = value (strip digits) := (value_strip digits).symm
    _ < radix ^ (strip digits).length := value_lt _
    _ ≤ radix ^ strippedLength digits := Nat.pow_le_pow_right radix_pos (le_max_right _ _)

/-- What a subtraction leaves: the digits below `d`, and the difference from
`d` on. -/
structure Working.Reduced (x : Working) (d n : Nat) (x' : Working) : Prop where
  valid : x'.Valid d
  length : x'.digits.length = x.digits.length
  low : x'.digits.take d = x.digits.take d
  high : value (x'.digits.drop d) = value (x.digits.drop d) - n

theorem Working.sub_of_length (hvalid : x.Valid d) (hpos : n.neg = false)
    (hlength : n.digits.length ≤ (x.digits.drop d).length)
    (hle : n.magnitude ≤ value (x.digits.drop d)) :
    ∃ x', x.sub d n = some x' ∧ x.Reduced d n.magnitude x' := by
  have hlower := hvalid.lower
  have hupper := hvalid.upper
  have hge := (hvalid.ge_iff_le hpos).mpr hle
  have hdifference := (subDigits_value_of_le hlength hle).1
  generalize hdigits : (subDigits (x.digits.drop d) n.digits 0).1 = digits at hdifference
  have hdigitsLength : digits.length = x.digits.length - d := by
    rw [← hdigits, subDigits_length, length_drop]
  have htakeLength : (x.digits.take d).length = d := by
    rw [length_take]
    omega
  have hsmall : value digits < radix ^ (x.length - d) := by
    have hlt := hvalid.drop_lt
    omega
  have hkept : value (digits.take (x.length - d)) = value digits := by
    rw [value_take, mod_eq_of_lt hsmall]
  have hstrip : strippedLength (digits.take (x.length - d)) ≤ x.length - d := by
    rw [strippedLength]
    have hle := strip_length_le (digits.take (x.length - d))
    rw [length_take] at hle
    omega
  refine ⟨⟨x.digits.take d ++ digits, strippedLength (digits.take (x.length - d)) + d⟩, ?_, ?_⟩
  · rw [Working.sub, if_pos hge, hdigits]
  · refine ⟨⟨?_, ?_, ?_⟩, ?_, ?_, ?_⟩
    · have hone : 1 ≤ strippedLength (digits.take (x.length - d)) := le_max_left _ _
      exact Nat.lt_add_of_pos_left hone
    · simp only [length_append]
      omega
    · rw [Nat.add_comm, ← drop_drop, drop_left' htakeLength]
      have htail := value_drop_strippedLength (digits.take (x.length - d))
      rw [value_drop, hkept] at htail
      rw [value_drop]
      exact htail
    · simp only [length_append]
      omega
    · exact take_left' htakeLength
    · rw [drop_left' htakeLength]
      exact hdifference

theorem Working.sub_some (hvalid : x.Valid d) (hpos : n.neg = false) (hstripped : n.Stripped)
    (hle : n.magnitude ≤ value (x.digits.drop d)) :
    ∃ x', x.sub d n = some x' ∧ x.Reduced d n.magnitude x' := by
  apply Working.sub_of_length hvalid hpos _ hle
  apply hstripped.length_le
  · have hlower := hvalid.lower
    have hupper := hvalid.upper
    rw [length_drop]
    omega
  · exact hle.trans_lt (value_lt _)

theorem Working.sub_none (hvalid : x.Valid d) (hpos : n.neg = false)
    (hlt : value (x.digits.drop d) < n.magnitude) : x.sub d n = none := by
  rw [Working.sub, if_neg]
  rw [hvalid.ge_iff_le hpos]
  omega

variable {y : BigNum}

/-- At most one subtraction brings the leading digits below `y`. -/
theorem reduceTop_some (hvalid : x.Valid d) (hpos : y.neg = false)
    (hstripped : y.Stripped) (hsome : 0 < y.magnitude)
    (hlt : value (x.digits.drop d) < 2 * y.magnitude) (fuel : Nat)
    (hfuel : value (x.digits.drop d) < fuel) :
    ∃ x' count, reduceTop y d fuel x 0 = some (x', count) ∧
      count.toNat = value (x.digits.drop d) / y.magnitude ∧
      x.Reduced d (value (x.digits.drop d) / y.magnitude * y.magnitude) x' := by
  obtain ⟨fuel, rfl⟩ : ∃ more, fuel = more + 1 := ⟨fuel - 1, by omega⟩
  by_cases hle : y.magnitude ≤ value (x.digits.drop d)
  · obtain ⟨fuel, rfl⟩ : ∃ more, fuel = more + 1 := ⟨fuel - 1, by omega⟩
    obtain ⟨x', hsub, hreduced⟩ := Working.sub_some hvalid hpos hstripped hle
    have hnot : ¬(x'.from d).ge y = true := by
      rw [hreduced.valid.ge_iff_le hpos, hreduced.high]
      omega
    have hone : value (x.digits.drop d) / y.magnitude = 1 := by
      rw [Nat.div_eq_iff hsome]
      omega
    refine ⟨x', 1, ?_, hone.symm, ?_⟩
    · rw [reduceTop, if_pos ((hvalid.ge_iff_le hpos).mpr hle), hsub]
      simp only [Option.bind_eq_bind, Option.bind_some]
      rw [reduceTop, if_neg hnot]
      rfl
    · rw [hone, Nat.one_mul]
      exact hreduced
  · have hzero : value (x.digits.drop d) / y.magnitude = 0 := div_eq_of_lt (by omega)
    refine ⟨x, 0, ?_, hzero.symm, ?_⟩
    · rw [reduceTop, if_neg (fun hge => hle ((hvalid.ge_iff_le hpos).mp hge))]
    · rw [hzero, Nat.zero_mul]
      exact ⟨hvalid, rfl, rfl, rfl⟩

/-! ### The estimated quotient digit -/

theorem adjustDigit_eq {y2 xm3 : BigNum} (hy : y2.neg = false) (hx : xm3.neg = false)
    (hpos : 0 < y2.magnitude) (qdigit : Nat) (hlt : qdigit < radix) :
    adjustDigit y2 xm3 qdigit = min qdigit (xm3.magnitude / y2.magnitude) := by
  induction qdigit with
  | zero => simp [adjustDigit]
  | succ qdigit ih =>
    have hdigit : (UInt32.ofNat (qdigit + 1)).toNat = qdigit + 1 :=
      toNat_ofNat_of_lt' hlt
    have hgt := gt_iff (plain_mulDigit hy (UInt32.ofNat (qdigit + 1))).1 hx
    rw [magnitude_mulDigit, ← Nat.not_le, Nat.mul_comm,
      ← Nat.le_div_iff_mul_le hpos] at hgt
    rw [adjustDigit]
    split
    · rename_i hlarge
      have hnot := hgt.mp hlarge
      omega
    · rename_i hsmall
      have hle := not_not.mp (fun h => hsmall (hgt.mpr h))
      omega

theorem firstEstimate_toNat {ymsd high : UInt32} (low : UInt32) (hle : high.toNat ≤ ymsd.toNat) :
    (firstEstimate ymsd high low).toNat =
      if high.toNat = ymsd.toNat then radix - 1
      else (high.toNat * radix + low.toNat) / ymsd.toNat := by
  have hhigh := toNat_lt_radix high
  have hlow := toNat_lt_radix low
  rw [firstEstimate]
  by_cases heq : high = ymsd
  · rw [if_pos heq, if_pos (congrArg UInt32.toNat heq)]
    rfl
  · have hne : high.toNat ≠ ymsd.toNat := fun h => heq (UInt32.toNat.inj h)
    rw [if_neg heq, if_neg hne]
    have hshift : (high.toUInt64 <<< 32).toNat = high.toNat * radix := by
      rw [UInt64.toNat_shiftLeft, toNat_toUInt64]
      simp only [UInt64.reduceToNat, Nat.reduceMod]
      rw [radix] at hhigh ⊢
      omega
    have hsum : (high.toUInt64 <<< 32 + low.toUInt64).toNat = high.toNat * radix + low.toNat := by
      rw [UInt64.toNat_add, hshift, toNat_toUInt64]
      rw [radix] at hhigh hlow ⊢
      omega
    have hquotient : (high.toNat * radix + low.toNat) / ymsd.toNat < radix := by
      apply Nat.div_lt_of_lt_mul
      have hle : (high.toNat + 1) * radix ≤ ymsd.toNat * radix :=
        Nat.mul_le_mul_right _ (by omega)
      rw [Nat.add_mul] at hle
      omega
    rw [UInt64.toNat_toUInt32, UInt64.toNat_div, hsum]
    exact mod_eq_of_lt hquotient

/-- The adjusted estimate is the largest digit whose product with the two
leading digits of `y` is not larger than the three leading digits of `x`. -/
theorem adjustDigit_firstEstimate {y2 xm3 : BigNum} {ymsd high low : UInt32}
    (hy : y2.neg = false) (hx : xm3.neg = false) (hymsd : ymsd.toNat = y2.magnitude / radix)
    (hhigh : high.toNat * radix + low.toNat = xm3.magnitude / radix) (hpos : 0 < ymsd.toNat)
    (hle : high.toNat ≤ ymsd.toNat) :
    adjustDigit y2 xm3 (firstEstimate ymsd high low).toNat =
      min (radix - 1) (xm3.magnitude / y2.magnitude) := by
  have hy2 : 0 < y2.magnitude := by
    rcases Nat.eq_zero_or_pos y2.magnitude with hzero | hsome
    · rw [hymsd, hzero] at hpos
      exact absurd hpos (Nat.lt_irrefl 0)
    · exact hsome
  have hbound := toNat_lt_radix (firstEstimate ymsd high low)
  rw [adjustDigit_eq hy hx hy2 _ hbound]
  have hfirst := firstEstimate_toNat low hle
  split at hfirst
  · rw [hfirst]
  · -- one digit of y and two of x already give no less
    have hleading : xm3.magnitude / y2.magnitude ≤ (firstEstimate ymsd high low).toNat := by
      rw [hfirst, hhigh, hymsd]
      rw [hymsd] at hpos
      exact div_le_div_leading hpos
    have hdigit : xm3.magnitude / y2.magnitude ≤ radix - 1 :=
      hleading.trans (le_sub_one_of_lt hbound)
    rw [min_eq_right hleading, min_eq_right hdigit]

variable {x : List UInt32}

theorem value_leading (hu : value x / radix ^ d = u) (hlt : u < radix ^ (k + 3)) :
    (x.getD (d + (k + 2)) 0).toNat = u / radix ^ (k + 2) ∧
      (x.getD (d + (k + 2)) 0).toNat * radix + (x.getD (d + (k + 1)) 0).toNat =
        u / radix ^ (k + 1) ∧
      value [x.getD (d + k) 0, x.getD (d + (k + 1)) 0, x.getD (d + (k + 2)) 0] =
        u / radix ^ k := by
  have hdigit : ∀ i, (x.getD (d + i) 0).toNat = u / radix ^ i % radix := by
    intro i
    rw [getD_toNat, Nat.pow_add, ← Nat.div_div_eq_div_mul, hu]
  have hsplit : ∀ i, u / radix ^ (i + 1) * radix + u / radix ^ i % radix = u / radix ^ i := by
    intro i
    rw [div_pow_succ]
    exact div_add_mod' _ _
  have htop : (x.getD (d + (k + 2)) 0).toNat = u / radix ^ (k + 2) := by
    rw [hdigit, mod_eq_of_lt]
    apply Nat.div_lt_of_lt_mul
    rwa [← Nat.pow_succ]
  have htwo : (x.getD (d + (k + 2)) 0).toNat * radix + (x.getD (d + (k + 1)) 0).toNat =
      u / radix ^ (k + 1) := by
    rw [htop, hdigit, hsplit (k + 1)]
  refine ⟨htop, htwo, ?_⟩
  calc value [x.getD (d + k) 0, x.getD (d + (k + 1)) 0, x.getD (d + (k + 2)) 0]
      = ((x.getD (d + (k + 2)) 0).toNat * radix + (x.getD (d + (k + 1)) 0).toNat) * radix +
          (x.getD (d + k) 0).toNat := by
        simp only [value_cons, value_nil]
        ring
    _ = u / radix ^ (k + 1) * radix + u / radix ^ k % radix := by rw [htwo, hdigit]
    _ = u / radix ^ k := hsplit k

theorem leading_le {y : Nat} (hlt : u < y * radix) : u / radix ^ (k + 1) ≤ y / radix ^ k := by
  rw [div_pow_succ, Nat.div_div_eq_div_mul, Nat.mul_comm (radix ^ k), ← Nat.div_div_eq_div_mul]
  apply Nat.div_le_div_right
  exact Nat.le_of_lt (Nat.div_lt_of_lt_mul (by rwa [Nat.mul_comm]))

theorem quotientDigit_toNat (hlength : y.length = k + 2) (hleading : radix ^ (k + 1) ≤ y.magnitude)
    (hu : value x / radix ^ d = u) (hlt : u < y.magnitude * radix) :
    (quotientDigit y (k + 1) x d).toNat = estimate radix u y.magnitude k := by
  have hylt : y.magnitude < radix ^ (k + 2) := hlength ▸ magnitude_lt y
  have hult : u < radix ^ (k + 3) := by
    exact hlt.trans (Nat.mul_lt_mul_of_pos_right hylt radix_pos)
  obtain ⟨htop, htwo, hthree⟩ := value_leading hu hult
  have hy2 : (view (y.digits.drop k)).magnitude = y.magnitude / radix ^ k := by
    rw [view_magnitude, value_drop, magnitude]
  have hymsd : (y.digits.getD (k + 1) 0).toNat = y.magnitude / radix ^ (k + 1) := by
    rw [getD_toNat, mod_eq_of_lt]
    · rfl
    · apply Nat.div_lt_of_lt_mul
      rwa [← Nat.pow_succ]
  have hpos : 0 < (y.digits.getD (k + 1) 0).toNat := by
    rw [hymsd]
    exact Nat.div_pos hleading (Nat.pow_pos radix_pos)
  have hadjust : adjustDigit (view (y.digits.drop k))
      (view [x.getD (d + k) 0, x.getD (d + (k + 1)) 0, x.getD (d + (k + 2)) 0])
      (firstEstimate (y.digits.getD (k + 1) 0) (x.getD (d + (k + 2)) 0)
        (x.getD (d + (k + 1)) 0)).toNat = estimate radix u y.magnitude k := by
    rw [adjustDigit_firstEstimate (view_neg _) (view_neg _) _ _ hpos, view_magnitude, hthree, hy2,
      estimate]
    · rw [htop, hymsd]
      exact leading_le hlt
    · rw [hy2, hymsd, div_pow_succ]
    · rw [view_magnitude, hthree, htwo, div_pow_succ]
  have hindex : d + (k + 1) + 1 = d + (k + 2) := by omega
  have hindex' : d + (k + 2) - 1 = d + (k + 1) := by omega
  have hindex'' : d + (k + 2) - 2 = d + k := by omega
  rw [quotientDigit]
  simp only [hindex, hindex', hindex'', Nat.add_sub_cancel, hadjust]
  apply toNat_ofNat_of_lt'
  exact Nat.lt_of_le_of_lt (min_le_left _ _) (by decide)

/-! ### The main loop -/

/-- The estimate of the quotient digit `d` is right. -/
def ExactDigit (x y k d : Nat) : Prop :=
  estimate radix (dividend radix x y d) y k = dividend radix x y d / y

/-- The state of the main loop before the quotient digits below `d`: the
dividend is reduced from `d` on, and the quotient is known from `d` on. -/
structure Divided (x y d : Nat) (w : Working) (q : List UInt32) : Prop where
  valid : w.Valid d
  high : value (w.digits.drop d) = x / radix ^ d % y
  low : value (w.digits.take d) = x % radix ^ d
  quotient : value (q.drop d) = x / radix ^ d / y
  room : d < q.length

section Loop

variable {x k : Nat} {y : BigNum} (hpos : y.neg = false) (hlength : y.length = k + 2)
  (hleading : radix ^ (k + 1) ≤ y.magnitude)

theorem Divided.drop_eq {y : Nat} (hdivided : Divided x y (d + 1) w q) :
    value (w.digits.drop d) = dividend radix x y d := by
  have hle : d + 1 ≤ w.digits.length :=
    Nat.le_of_lt (hdivided.valid.lower.trans_le hdivided.valid.upper)
  rw [value_drop, value_take_add_drop w.digits (d + 1) hle, hdivided.high, hdivided.low, dividend,
    Nat.pow_succ, Nat.mul_assoc, add_mul_div_left _ _ (Nat.pow_pos radix_pos),
    mod_mul_right_div_self]
  ring

theorem Divided.valid_succ {y : Nat} (hdivided : Divided x y (d + 1) w q) : w.Valid d :=
  ⟨lt_of_succ_lt hdivided.valid.lower, hdivided.valid.upper, hdivided.valid.tail⟩

include hleading

theorem divisor_leading : 0 < y.magnitude / radix ^ k := by
  apply Nat.div_pos _ (Nat.pow_pos radix_pos)
  exact (Nat.pow_le_pow_right radix_pos (le_succ k)).trans hleading

theorem dividend_lt_mul : dividend radix x y.magnitude d < y.magnitude * radix :=
  dividend_lt radix_pos ((Nat.pow_pos radix_pos).trans_le hleading) x d

include hlength

section Turn

variable (hdivided : Divided x y.magnitude (d + 1) w q)

include hdivided

theorem Divided.quotientDigit :
    (quotientDigit y (k + 1) w.digits d).toNat =
      estimate radix (dividend radix x y.magnitude d) y.magnitude k := by
  apply quotientDigit_toNat hlength hleading _ (dividend_lt_mul hleading)
  rw [← value_drop, hdivided.drop_eq]

/-- The multiple of the divisor that the loop subtracts is small enough only if the
estimate is right. -/
theorem Divided.product_le_iff :
    (y.mulDigit (BigNum.quotientDigit y (k + 1) w.digits d) false).magnitude ≤
      value (w.digits.drop d) ↔ ExactDigit x y.magnitude k d := by
  rw [magnitude_mulDigit, hdivided.quotientDigit hlength hleading, Nat.mul_comm, hdivided.drop_eq]
  exact estimate_mul_le_iff (dividend_lt_mul hleading) (divisor_leading hleading)

include hpos

/-- A digit that is estimated right is divided out. -/
theorem divideDigits_step (hexact : ExactDigit x y.magnitude k d) :
    ∃ w', divideDigits y (k + 1) (d + 1) w q =
        divideDigits y (k + 1) d w' (q.set d (quotientDigit y (k + 1) w.digits d)) ∧
      Divided x y.magnitude d w' (q.set d (quotientDigit y (k + 1) w.digits d)) := by
  have hquotient : (quotientDigit y (k + 1) w.digits d).toNat =
      dividend radix x y.magnitude d / y.magnitude :=
    (hdivided.quotientDigit hlength hleading).trans hexact
  obtain ⟨w', hsub, hreduced⟩ := Working.sub_some hdivided.valid_succ (plain_mulDigit hpos _).1
    (plain_mulDigit hpos _).2 ((hdivided.product_le_iff hlength hleading).mpr hexact)
  have hsign : ¬(w'.from d).lt zero = true := by
    have hfrom : (w'.from d).neg = false := view_neg _
    rw [lt_iff hfrom rfl]
    exact Nat.not_lt_zero _
  refine ⟨w', ?_, hreduced.valid, ?_, ?_, ?_, ?_⟩
  · rw [divideDigits, hsub]
    simp [if_neg hsign]
  · rw [hreduced.high, magnitude_mulDigit, hquotient, hdivided.drop_eq, ← dividend_mod]
    have hmod := div_add_mod (dividend radix x y.magnitude d) y.magnitude
    omega
  · rw [hreduced.low]
    have htake : w.digits.take d = (w.digits.take (d + 1)).take d := by
      rw [take_take, Nat.min_eq_left (le_succ d)]
    rw [htake, value_take, hdivided.low]
    exact mod_mod_of_dvd _ (Nat.pow_dvd_pow radix (le_succ d))
  · have hroom := hdivided.room
    rw [drop_set, if_neg (Nat.lt_irrefl d), Nat.sub_self,
      drop_eq_getElem_cons (by omega : d < q.length), set_cons_zero, value_cons,
      hdivided.quotient, hquotient, div_eq radix x y.magnitude d]
    ring
  · have hroom := hdivided.room
    rw [length_set]
    omega

/-- A digit that is estimated too large fails the assertion of `sub`. -/
theorem divideDigits_fails (hinexact : ¬ExactDigit x y.magnitude k d) :
    divideDigits y (k + 1) (d + 1) w q = none := by
  have hlarge := Nat.lt_of_not_le (mt (hdivided.product_le_iff hlength hleading).mp hinexact)
  rw [divideDigits, Working.sub_none hdivided.valid_succ (plain_mulDigit hpos _).1 hlarge]
  rfl

end Turn

include hpos

theorem divideDigits_spec (hdivided : Divided x y.magnitude d w q) :
    ((divideDigits y (k + 1) d w q).isSome ↔ ∀ e < d, ExactDigit x y.magnitude k e) ∧
      ∀ result ∈ divideDigits y (k + 1) d w q, Divided x y.magnitude 0 result.1 result.2 := by
  induction d generalizing w q with
  | zero => exact ⟨by simp [divideDigits], by rintro _ ⟨⟩; exact hdivided⟩
  | succ d ih =>
    rw [forall_lt_succ_right]
    by_cases hexact : ExactDigit x y.magnitude k d
    · obtain ⟨w', hstep, hdivided'⟩ :=
        divideDigits_step hpos hlength hleading hdivided hexact
      rw [hstep, and_iff_left hexact]
      exact ih hdivided'
    · rw [divideDigits_fails hpos hlength hleading hdivided hexact]
      exact ⟨iff_of_false (by simp) fun hall => hexact hall.2, by simp⟩

end Loop

/-! ### Normalisation -/

/-- Or-ing a word with itself shifted doubles the distance over which a bit is
seen. -/
theorem testBit_fill {n m w : Nat} (hm : ∀ j, m.testBit j = true ↔ ∃ i < w, n.testBit (j + i) = true)
    (j : Nat) : (m ||| m >>> w).testBit j = true ↔ ∃ i < 2 * w, n.testBit (j + i) = true := by
  rw [testBit_or, testBit_shiftRight, Bool.or_eq_true, hm, hm]
  constructor
  · rintro (⟨i, hi, hbit⟩ | ⟨i, hi, hbit⟩)
    · exact ⟨i, by omega, hbit⟩
    · refine ⟨w + i, by omega, ?_⟩
      have hsum : j + (w + i) = w + j + i := by omega
      rwa [hsum]
  · rintro ⟨i, hi, hbit⟩
    by_cases hlt : i < w
    · exact Or.inl ⟨i, hlt, hbit⟩
    · refine Or.inr ⟨i - w, by omega, ?_⟩
      have hsum : w + j + (i - w) = j + i := by omega
      rwa [hsum]

theorem log2_lt {n : UInt32} (hn : n ≠ 0) : n.toNat ≠ 0 ∧ n.toNat.log2 < 32 := by
  have hne : n.toNat ≠ 0 := fun hzero => hn (UInt32.toNat.inj hzero)
  exact ⟨hne, (Nat.log2_lt hne).mpr n.toNat_lt⟩

theorem fillBits_toNat {n : UInt32} (hn : n ≠ 0) :
    (fillBits n).toNat = 2 ^ (n.toNat.log2 + 1) - 1 := by
  obtain ⟨hne, hlog⟩ := log2_lt hn
  have hfirst : ∀ j, n.toNat.testBit j = true ↔ ∃ i < 1, n.toNat.testBit (j + i) = true := by
    intro j
    simp
  have hfill := testBit_fill (testBit_fill (testBit_fill (testBit_fill (testBit_fill hfirst))))
  apply eq_of_testBit_eq
  intro j
  rw [Bool.eq_iff_iff, testBit_two_pow_sub_one, decide_eq_true_eq]
  have hword : (fillBits n).toNat.testBit j = true ↔
      ∃ i < 2 * (2 * (2 * (2 * (2 * 1)))), n.toNat.testBit (j + i) = true := by
    rw [← hfill j]
    simp [fillBits]
  rw [hword]
  constructor
  · rintro ⟨i, -, hbit⟩
    have hge := ge_two_pow_of_testBit hbit
    have hle := (le_log2 hne).mpr hge
    omega
  · intro hj
    refine ⟨n.toNat.log2 - j, by omega, ?_⟩
    have hsum : j + (n.toNat.log2 - j) = n.toNat.log2 := by omega
    rw [hsum]
    exact testBit_log2 hne

theorem log2_toNat {n : UInt32} (hn : n ≠ 0) : (log2 n).toNat = n.toNat.log2 := by
  obtain ⟨hne, hlog⟩ := log2_lt hn
  have hfill : fillBits n = UInt32.ofNat (2 ^ (n.toNat.log2 + 1) - 1) := by
    apply UInt32.toNat.inj
    rw [fillBits_toNat hn, toNat_ofNat_of_lt']
    have hpow : 2 ^ (n.toNat.log2 + 1) ≤ 2 ^ 32 := Nat.pow_le_pow_right (by decide) (by omega)
    have hsize : UInt32.size = 2 ^ 32 := rfl
    omega
  have htable : ∀ k < 32, (deBruijnPos.getD
      ((UInt32.ofNat (2 ^ (k + 1) - 1) * deBruijnMagic) >>> 27).toNat 0).toNat = k := by
    decide
  rw [log2, hfill, htable _ hlog]

variable {t : Nat}

theorem getLast_toNat (hlength : y.length = t + 1) :
    ∃ low, low < radix ^ t ∧
      y.magnitude = low + radix ^ t * (y.digits.getLast y.nonempty).toNat := by
  have hdrop : y.digits.dropLast.length = t := by
    rw [length_dropLast]
    exact congrArg (· - 1) hlength
  refine ⟨value y.digits.dropLast, ?_, ?_⟩
  · have hlt := value_lt y.digits.dropLast
    rwa [hdrop] at hlt
  · have hconcat := value_concat y.digits.dropLast (y.digits.getLast y.nonempty)
    rwa [dropLast_append_getLast, hdrop] at hconcat

theorem norm_spec (hlength : y.length = t + 1) (hleading : radix ^ t ≤ y.magnitude) :
    (norm y).toNat < 32 ∧ radix ^ (t + 1) ≤ 2 * (y.magnitude * 2 ^ (norm y).toNat) ∧
      y.magnitude * 2 ^ (norm y).toNat < radix ^ (t + 1) := by
  obtain ⟨low, hlow, hvalue⟩ := getLast_toNat hlength
  rw [norm]
  generalize y.digits.getLast y.nonempty = top at hvalue
  have hne : top ≠ 0 := by
    rintro rfl
    rw [hvalue, UInt32.toNat_zero] at hleading
    omega
  obtain ⟨hnat, hlog⟩ := log2_lt hne
  have hshift : (31 - log2 top).toNat = 31 - top.toNat.log2 := by
    rw [UInt32.toNat_sub_of_le, log2_toNat hne]
    · rfl
    · rw [le_iff_toNat_le, log2_toNat hne]
      exact le_of_lt_succ hlog
  have hge : 2 ^ top.toNat.log2 ≤ top.toNat := log2_self_le hnat
  have hlt : top.toNat + 1 ≤ 2 ^ (top.toNat.log2 + 1) := lt_log2_self
  have hhalf : 2 ^ top.toNat.log2 * 2 ^ (31 - top.toNat.log2) = 2 ^ 31 := by
    rw [← Nat.pow_add]
    congr 1
    omega
  have hfull : 2 ^ (top.toNat.log2 + 1) * 2 ^ (31 - top.toNat.log2) = radix := by
    rw [← Nat.pow_add]
    have hsum : top.toNat.log2 + 1 + (31 - top.toNat.log2) = 32 := by omega
    rw [hsum]
    rfl
  rw [hshift, hvalue]
  refine ⟨by omega, ?_, ?_⟩
  · calc radix ^ (t + 1) = 2 * (radix ^ t * 2 ^ 31) := by
          rw [radix]
          ring
      _ = 2 * (radix ^ t * (2 ^ top.toNat.log2 * 2 ^ (31 - top.toNat.log2))) := by rw [hhalf]
      _ ≤ 2 * (radix ^ t * (top.toNat * 2 ^ (31 - top.toNat.log2))) := by gcongr
      _ ≤ 2 * ((low + radix ^ t * top.toNat) * 2 ^ (31 - top.toNat.log2)) := by
          rw [← Nat.mul_assoc (radix ^ t)]
          gcongr
          exact Nat.le_add_left _ _
  · have hpow : 0 < 2 ^ (31 - top.toNat.log2) := Nat.pow_pos (by decide)
    calc (low + radix ^ t * top.toNat) * 2 ^ (31 - top.toNat.log2)
        < (radix ^ t + radix ^ t * top.toNat) * 2 ^ (31 - top.toNat.log2) :=
          Nat.mul_lt_mul_of_pos_right (Nat.add_lt_add_right hlow _) hpow
      _ = radix ^ t * ((top.toNat + 1) * 2 ^ (31 - top.toNat.log2)) := by ring
      _ ≤ radix ^ t * (2 ^ (top.toNat.log2 + 1) * 2 ^ (31 - top.toNat.log2)) := by gcongr
      _ = radix ^ (t + 1) := by rw [hfull, Nat.pow_succ]

theorem shiftLeft_pos (hpos : n.neg = false) (shift : UInt32) :
    (n.shiftLeft shift).neg = false := by
  rw [shiftLeft]
  split
  · exact stripLz_pos hpos
  · dsimp only
    split <;> exact stripLz_pos hpos

theorem normalise_spec (hpos : n.neg = false) (hstripped : n.Stripped) (shift : UInt32) :
    (n.normalise shift).magnitude = n.magnitude * 2 ^ shift.toNat ∧
      (n.normalise shift).Stripped ∧ (n.normalise shift).neg = false := by
  rw [normalise]
  split
  · exact ⟨magnitude_shiftLeft n shift, stripped_shiftLeft n shift, shiftLeft_pos hpos shift⟩
  · rename_i hzero
    rw [not_not.mp hzero]
    exact ⟨by simp, hstripped, hpos⟩

/-! ### The right shift -/

theorem shiftRightDigits_length (shift : UInt32) (vs : List UInt32) (ext : UInt32) :
    (shiftRightDigits shift vs ext).length = vs.length := by
  induction vs generalizing ext with
  | nil => rfl
  | cons v vs ih => rw [shiftRightDigits, length_cons, ih, length_cons]

section ShiftRight

variable {shift : UInt32} (hsome : 0 < shift.toNat) (hshift : shift.toNat < 32)

include hshift

theorem pow_shift_mul : 2 ^ (32 - shift.toNat) * 2 ^ shift.toNat = radix := by
  rw [← Nat.pow_add]
  have hsum : 32 - shift.toNat + shift.toNat = 32 := by omega
  rw [hsum]
  rfl

theorem shiftRight_ext (hsome : 0 < shift.toNat) (v : UInt32) :
    (v <<< (32 - shift)).toNat = v.toNat % 2 ^ shift.toNat * 2 ^ (32 - shift.toNat) := by
  have hsub : (32 - shift).toNat = 32 - shift.toNat := by
    rw [UInt32.toNat_sub_of_le]
    · rfl
    · rw [le_iff_toNat_le]
      exact Nat.le_of_lt hshift
  rw [UInt32.toNat_shiftLeft, hsub, mod_eq_of_lt (by omega : 32 - shift.toNat < 32),
    shiftLeft_eq, ← mul_mod_mul_right, Nat.mul_comm (2 ^ shift.toNat),
    pow_shift_mul hshift]
  rfl

theorem shiftRight_digit {ext : UInt32} (hext : 2 ^ (32 - shift.toNat) ∣ ext.toNat) (v : UInt32) :
    (ext ||| v >>> shift).toNat = ext.toNat + v.toNat / 2 ^ shift.toNat := by
  have hhigh : (v >>> shift).toNat = v.toNat / 2 ^ shift.toNat := by
    rw [UInt32.toNat_shiftRight, mod_eq_of_lt hshift, shiftRight_eq_div_pow]
  have hlt : (v >>> shift).toNat < 2 ^ (32 - shift.toNat) := by
    rw [hhigh, Nat.div_lt_iff_lt_mul (Nat.pow_pos (by decide)), pow_shift_mul hshift]
    exact toNat_lt_radix v
  rw [or_eq_add_of_lt hlt hext, hhigh]

include hsome

theorem shiftRightDigits_value (v : UInt32) (vs : List UInt32) (ext : UInt32)
    (hext : 2 ^ (32 - shift.toNat) ∣ ext.toNat) :
    value (shiftRightDigits shift (v :: vs) ext).reverse =
      value (v :: vs).reverse / 2 ^ shift.toNat + radix ^ vs.length * ext.toNat := by
  induction vs generalizing v ext with
  | nil =>
    simp only [shiftRightDigits, reverse_singleton, value_cons, value_nil,
      shiftRight_digit hshift hext, length_nil, Nat.pow_zero, Nat.one_mul, Nat.mul_zero,
      Nat.add_zero]
    exact Nat.add_comm _ _
  | cons w vs ih =>
    have hnext := shiftRight_ext hshift hsome v
    have hrest := ih w (v <<< (32 - shift)) (by rw [hnext]; exact Nat.dvd_mul_left _ _)
    have hpos : 0 < 2 ^ shift.toNat := Nat.pow_pos (by decide)
    have hmul : radix ^ (vs.length + 1) * v.toNat =
        2 ^ shift.toNat * (radix ^ vs.length * (2 ^ (32 - shift.toNat) * v.toNat)) := by
      rw [← pow_shift_mul hshift]
      ring
    have hsplit : radix ^ vs.length * (2 ^ (32 - shift.toNat) * v.toNat) =
        radix ^ vs.length * (v.toNat % 2 ^ shift.toNat * 2 ^ (32 - shift.toNat)) +
          radix ^ (vs.length + 1) * (v.toNat / 2 ^ shift.toNat) := by
      nth_rewrite 1 [← mod_add_div v.toNat (2 ^ shift.toNat)]
      rw [← pow_shift_mul hshift]
      ring
    rw [shiftRightDigits, reverse_cons, reverse_cons (a := v), value_concat,
      value_concat, hrest, shiftRight_digit hshift hext, hnext, length_reverse,
      length_reverse, shiftRightDigits_length, length_cons, hmul,
      add_mul_div_left _ _ hpos, hsplit]
    ring

theorem shiftRight_some (hpos : n.neg = false) :
    ∃ r, n.shiftRight shift = some r ∧ r.magnitude = n.magnitude / 2 ^ shift.toNat ∧
      r.neg = false := by
  have hwords : (shift >>> 5).toNat = 0 := by
    rw [UInt32.toNat_shiftRight]
    simp only [UInt32.reduceToNat, Nat.reduceMod]
    omega
  have hbits : shift &&& 0x1F = shift := by
    apply UInt32.toNat.inj
    exact (and_two_pow_sub_one_eq_mod _ 5).trans (mod_eq_of_lt hshift)
  have hne : shift ≠ 0 := by
    rintro rfl
    exact absurd hsome (by decide)
  have hlength : n.length > 0 := length_pos_iff.mpr n.nonempty
  generalize hdigits : (shiftRightDigits shift n.stripLz.digits.reverse 0).reverse = digits
  have hvalue : value digits = n.magnitude / 2 ^ shift.toNat := by
    have hnonempty : n.stripLz.digits.reverse ≠ [] := by simp [n.stripLz.nonempty]
    rw [← hdigits, ← magnitude_stripLz, magnitude]
    generalize hrev : n.stripLz.digits.reverse = vs at hnonempty
    have hback : n.stripLz.digits = vs.reverse := by rw [← hrev, reverse_reverse]
    cases vs with
    | nil => exact absurd rfl hnonempty
    | cons v vs =>
      rw [hback, shiftRightDigits_value hsome hshift v vs 0 (Nat.dvd_zero _)]
      simp
  have hdigitsSome : digits ≠ [] := by
    rw [← hdigits, ← length_pos_iff, length_reverse, shiftRightDigits_length,
      length_reverse]
    exact length_pos_iff.mpr n.stripLz.nonempty
  refine ⟨stripLz ⟨digits, n.stripLz.neg, hdigitsSome⟩, ?_, ?_, ?_⟩
  · rw [shiftRight]
    simp [hwords, hbits, if_pos hlength, if_neg hne, hdigits, dif_pos hdigitsSome]
  · rw [magnitude_stripLz]
    exact hvalue
  · exact stripLz_pos (stripLz_pos hpos)

end ShiftRight

theorem denormalise_some (hpos : n.neg = false) {shift : UInt32} (hshift : shift.toNat < 32) :
    ∃ r, n.denormalise shift = some r ∧ r.magnitude = n.magnitude / 2 ^ shift.toNat ∧
      r.neg = false := by
  rw [denormalise]
  split
  · rename_i hne
    have hsome : 0 < shift.toNat := Nat.pos_of_ne_zero fun hzero => hne (UInt32.toNat.inj hzero)
    obtain ⟨r, hr, hvalue, hneg⟩ := shiftRight_some hsome hshift hpos
    exact ⟨r, hr, hvalue, hneg⟩
  · rename_i hzero
    rw [not_not.mp hzero]
    exact ⟨n, rfl, by simp, hpos⟩

end AllJoyn.Crypto.BigNum
