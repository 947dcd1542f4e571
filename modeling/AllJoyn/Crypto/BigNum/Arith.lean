import AllJoyn.Crypto.BigNum.Value

/-!
The operators of `BigNum` against the integers: where they agree, and what
leading zeroes, a negative zero and two negative numbers do to them.
-/

namespace AllJoyn.Crypto.BigNum

open Lib.Limbs List Nat

variable {n a b r : BigNum} {fuel : Nat}

/-! ### Signs and leading zeroes -/

@[simp]
theorem magnitude_zero : zero.magnitude = 0 := rfl

@[simp]
theorem toInt_zero : zero.toInt = 0 := rfl

@[simp]
theorem magnitude_stripLz (n : BigNum) : n.stripLz.magnitude = n.magnitude := by
  rw [stripLz]
  split
  · exact value_strip n.digits
  · rename_i hnil
    have hzero := strip_eq_nil.mp (not_not.mp hnil)
    rw [magnitude_zero, magnitude, hzero]

theorem toInt_eq_zero (hzero : n.magnitude = 0) : n.toInt = 0 := by
  rw [toInt, hzero]
  simp

theorem stripLz_of_zero (hzero : n.magnitude = 0) : n.stripLz = zero := by
  rw [stripLz, dif_neg]
  exact not_not.mpr (strip_eq_nil.mpr hzero)

theorem stripLz_neg (hne : n.magnitude ≠ 0) : n.stripLz.neg = n.neg := by
  rw [stripLz, dif_pos]
  exact fun hnil => hne (strip_eq_nil.mp hnil)

@[simp]
theorem toInt_stripLz (n : BigNum) : n.stripLz.toInt = n.toInt := by
  by_cases hzero : n.magnitude = 0
  · rw [stripLz_of_zero hzero, toInt_eq_zero hzero, toInt_zero]
  · rw [toInt, toInt, stripLz_neg hzero, magnitude_stripLz]

variable (elided : Bool)

@[simp]
theorem toInt_returned (n : BigNum) : (returned elided n).toInt = n.toInt := by
  cases elided <;> simp [returned]

theorem toInt_flip (n : BigNum) : ({ n with neg := !n.neg } : BigNum).toInt = -n.toInt := by
  cases hneg : n.neg <;> simp [toInt, hneg, magnitude]

@[simp]
theorem toInt_negate (n : BigNum) : (n.negate elided).toInt = -n.toInt := by
  rw [negate, toInt_returned, toInt_flip, toInt_stripLz]

@[simp]
theorem magnitude_negate (n : BigNum) :
    (n.negate elided).magnitude = n.magnitude := by
  have hflip : ({ n.stripLz with neg := !n.stripLz.neg } : BigNum).magnitude = n.magnitude :=
    magnitude_stripLz n
  cases elided
  · exact (magnitude_stripLz _).trans hflip
  · exact hflip

/-- A zero with its sign set, as the negation of zero returns it unless it is
copied. -/
def NegativeZero (n : BigNum) : Prop := n.neg = true ∧ n.magnitude = 0

theorem negate_neg {elided : Bool} (hneg : n.neg = true) (hzero : elided = true → ¬n.NegativeZero) :
    (n.negate elided).neg = false := by
  by_cases hmag : n.magnitude = 0
  · cases elided with
    | true => exact absurd ⟨hneg, hmag⟩ (hzero rfl)
    | false =>
      rw [negate, stripLz_of_zero hmag]
      rfl
  · have hflip : ({ n.stripLz with neg := !n.stripLz.neg } : BigNum).neg = false := by
      simp [stripLz_neg hmag, hneg]
    cases elided with
    | true => exact hflip
    | false =>
      rw [negate, returned, if_neg (by decide), stripLz_neg]
      · exact hflip
      · exact fun hstripped => hmag ((magnitude_stripLz n).symm.trans hstripped)

theorem negativeZero_negate (hzero : n.NegativeZero) : (n.negate true).NegativeZero := by
  refine ⟨?_, by rw [magnitude_negate]; exact hzero.2⟩
  rw [negate, stripLz_of_zero hzero.2]
  rfl

/-- No leading zeroes. -/
def Stripped (n : BigNum) : Prop := n.length = 1 ∨ radix ^ (n.length - 1) ≤ n.magnitude

theorem stripped_stripLz (n : BigNum) : n.stripLz.Stripped := by
  rw [stripLz]
  split
  · rename_i hsome
    refine Or.inr ?_
    rw [magnitude, value_strip]
    exact pow_le_value_strip n.digits hsome
  · exact Or.inl rfl

theorem stripped_negate (n : BigNum) : (n.negate elided).Stripped := by
  cases elided
  · exact stripped_stripLz _
  · exact stripped_stripLz n

theorem magnitude_lt (n : BigNum) : n.magnitude < radix ^ n.length := value_lt n.digits

/-- Of two numbers the one with more digits is not the smaller one. -/
def Ordered (a b : BigNum) : Prop :=
  (b.length < a.length → b.magnitude ≤ a.magnitude) ∧
    (a.length < b.length → a.magnitude ≤ b.magnitude)

theorem Stripped.magnitude_le (hb : b.Stripped) (hlt : a.length < b.length) :
    a.magnitude ≤ b.magnitude := by
  have hpos : 0 < a.length := length_pos_iff.mpr a.nonempty
  rcases hb with hone | hle
  · omega
  · calc a.magnitude ≤ radix ^ a.length := (magnitude_lt a).le
      _ ≤ radix ^ (b.length - 1) := Nat.pow_le_pow_right radix_pos (by omega)
      _ ≤ b.magnitude := hle

theorem Stripped.ordered (ha : a.Stripped) (hb : b.Stripped) : Ordered a b :=
  ⟨ha.magnitude_le, hb.magnitude_le⟩

/-! ### Magnitudes -/

@[simp]
theorem toInt_addMagnitudes (a b : BigNum) :
    (addMagnitudes a b).toInt = a.magnitude + b.magnitude := by
  rw [addMagnitudes]
  split
  · rename_i hle
    have hvalue := (addDigits_spec a.digits b.digits 0 hle (by decide)).1
    simp only [toInt, magnitude, hvalue]
    simp
  · rename_i hlt
    have hle : a.length ≤ b.length := by omega
    have hvalue := (addDigits_spec b.digits a.digits 0 hle (by decide)).1
    simp only [toInt, magnitude, hvalue]
    simp [Int.add_comm]

theorem toInt_difference {xs ys : List UInt32} (hlength : ys.length ≤ xs.length)
    (hle : value ys ≤ value xs) (neg : Bool) :
    (difference xs ys neg).toInt =
      if neg then (value ys : Int) - value xs else (value xs : Int) - value ys := by
  rw [difference]
  split
  · rw [toInt_stripLz, toInt, magnitude, (subDigits_value_of_le hlength hle).1,
      cast_sub hle]
    split <;> ring
  · rename_i hnil
    have hxs := not_not.mp hnil
    subst hxs
    have hys : value ys = 0 := le_zero.mp hle
    simp [hys]

/-- A difference from a larger number has the sign it is given, the wrong one. -/
theorem toInt_difference_of_lt {xs ys : List UInt32} (hlength : ys.length ≤ xs.length)
    (hlt : value xs < value ys) (neg : Bool) :
    if neg then (difference xs ys neg).toInt < 0 else 0 < (difference xs ys neg).toInt := by
  have hpos := subDigits_value_of_lt hlength hlt
  have hsome : xs ≠ [] := by
    intro hnil
    subst hnil
    have hys := eq_nil_of_length_eq_zero (le_zero.mp hlength)
    subst hys
    exact absurd hlt (by simp)
  rw [difference, dif_pos hsome, toInt_stripLz, toInt, magnitude]
  cases neg <;> simpa using hpos

/-- The digits in which two numbers agree do not count. -/
theorem value_sub_of_high (low low' high : List UInt32) (hlength : low.length = low'.length) :
    (value (low ++ high) : Int) - value (low' ++ high) = (value low : Int) - value low' := by
  rw [value_append, value_append, hlength]
  push_cast
  ring

theorem toInt_subMagnitudes (hordered : Ordered a b) :
    (subMagnitudes a b).toInt = (a.magnitude : Int) - b.magnitude := by
  rw [subMagnitudes]
  split
  · rename_i hlt
    rw [toInt_difference (Nat.le_of_lt hlt) (hordered.1 hlt)]
    rfl
  · split
    · rename_i hlt
      rw [toInt_difference (Nat.le_of_lt hlt) (hordered.2 hlt)]
      rfl
    · have hlength : a.digits.length = b.digits.length := by
        rename_i hnlt hngt
        rw [length, length] at hnlt hngt
        omega
      rcases differing_spec hlength with ⟨hzero, heq⟩ |
          ⟨low, low', high, x, y, hxs, hys, hxy, hlow, hdiff⟩
      · simp only [hzero]
        rw [magnitude, magnitude, heq]
        simp
      · have htake : a.digits.take (low.length + 1) = low ++ [x] := by
          rw [hxs, take_append]
          simp
        have htake' : b.digits.take (low.length + 1) = low' ++ [y] := by
          rw [hys, take_append, hlow]
          simp
        have hget : a.digits.getD low.length 0 = x := by
          rw [hxs]
          simp
        have hget' : b.digits.getD low.length 0 = y := by
          rw [hys, hlow]
          simp
        have hmagnitude : (a.magnitude : Int) - b.magnitude =
            (value (low ++ [x]) : Int) - value (low' ++ [y]) := by
          have hsplit := value_sub_of_high (low ++ [x]) (low' ++ [y]) high (by simp [hlow])
          rw [magnitude, magnitude, hxs, hys]
          simpa using hsplit
        have hlengths : (low' ++ [y]).length = (low ++ [x]).length := by simp [hlow]
        simp only [hdiff, Nat.add_sub_cancel, add_one_ne_zero, if_false, hget, hget', htake,
          htake']
        split
        · rename_i hgt
          rw [toInt_difference hlengths.le (value_concat_lt hlow.symm hgt).le, hmagnitude]
          rfl
        · rename_i hngt
          have hlt : x < y := by
            rcases Std.lt_trichotomy x y with hlt | heq | hgt
            · exact hlt
            · exact absurd heq hxy
            · exact absurd hgt hngt
          rw [toInt_difference hlengths.ge (value_concat_lt hlow hlt).le, hmagnitude]
          rfl

theorem ordered_of_toInt_subMagnitudes
    (hvalue : (subMagnitudes a b).toInt = (a.magnitude : Int) - b.magnitude) : Ordered a b := by
  constructor
  · intro hlt
    by_contra hnot
    have hsmaller : value a.digits < value b.digits := Nat.lt_of_not_le hnot
    have hsign := toInt_difference_of_lt (Nat.le_of_lt hlt) hsmaller false
    rw [subMagnitudes, if_pos hlt] at hvalue
    rw [if_neg (by decide), hvalue, magnitude, magnitude] at hsign
    omega
  · intro hlt
    by_contra hnot
    have hsmaller : value b.digits < value a.digits := Nat.lt_of_not_le hnot
    have hsign := toInt_difference_of_lt (Nat.le_of_lt hlt) hsmaller true
    rw [subMagnitudes, if_neg (by omega), if_pos hlt] at hvalue
    rw [if_pos rfl, hvalue, magnitude, magnitude] at hsign
    omega

/-! ### Sums and differences of any sign -/

section Sum

variable {elided : Bool}

theorem add_sub_succ (fuel : Nat) :
    (∀ a b r, add elided fuel a b = some r → add elided (fuel + 1) a b = some r) ∧
      ∀ a b r, sub elided fuel a b = some r → sub elided (fuel + 1) a b = some r := by
  induction fuel with
  | zero =>
    constructor
    · intro a b r hadd
      cases hadd
    · intro a b r hsub
      cases hsub
  | succ fuel ih =>
    constructor
    · intro a b r hadd
      rw [add] at hadd ⊢
      split
      · rw [if_pos (by assumption)] at hadd
        exact ih.2 _ _ _ hadd
      · rw [if_neg (by assumption)] at hadd
        split
        · rw [if_pos (by assumption)] at hadd
          exact ih.2 _ _ _ hadd
        · rwa [if_neg (by assumption)] at hadd
    · intro a b r hsub
      rw [sub] at hsub ⊢
      split
      · rw [if_pos (by assumption)] at hsub
        exact ih.1 _ _ _ hsub
      · rw [if_neg (by assumption)] at hsub
        split
        · rw [if_pos (by assumption)] at hsub
          obtain ⟨d, hd, hr⟩ := Option.map_eq_some_iff.mp hsub
          rw [ih.2 _ _ _ hd, ← hr]
          rfl
        · rwa [if_neg (by assumption)] at hsub

/-- An operation that keeps its result when it has more room for calls, and has one
only where `ok` holds, and there with room for four. -/
theorem exists_result_iff {op : Nat → Option BigNum} {ok : Prop}
    (hsucc : ∀ fuel r, op fuel = some r → op (fuel + 1) = some r)
    (hok : ∀ fuel r, op fuel = some r → ok) (hsome : ok → (op 4).isSome)
    (right : BigNum → Prop) :
    (∃ fuel r, op fuel = some r ∧ right r) ↔ ok ∧ ∀ r, op 4 = some r → right r := by
  have hmore : ∀ fuel r more, op fuel = some r → op (fuel + more) = some r := by
    intro fuel r more hop
    induction more with
    | zero => exact hop
    | succ more ih => exact hsucc _ _ ih
  constructor
  · rintro ⟨fuel, r, hop, hright⟩
    refine ⟨hok fuel r hop, ?_⟩
    intro r' hop'
    have hsame := hmore 4 r' fuel hop'
    rw [Nat.add_comm, hmore fuel r 4 hop] at hsame
    cases hsame
    exact hright
  · rintro ⟨h, hright⟩
    obtain ⟨r, hop⟩ := Option.isSome_iff_exists.mp (hsome h)
    exact ⟨4, r, hop, hright r hop⟩

/-- The two operators call each other without end on a negative zero. -/
theorem diverges_right (fuel : Nat) (a b : BigNum) (hzero : b.NegativeZero) :
    add true fuel a b = none ∧ sub true fuel a b = none := by
  induction fuel generalizing b with
  | zero =>
    exact ⟨rfl, rfl⟩
  | succ fuel ih =>
    rw [add, sub, if_pos hzero.1, if_pos hzero.1]
    exact (ih _ (negativeZero_negate hzero)).symm

theorem diverges_left (fuel : Nat) (a b : BigNum) (hzero : a.NegativeZero) :
    add true fuel a b = none ∧ sub true fuel a b = none := by
  by_cases hb : b.NegativeZero
  · exact diverges_right fuel a b hb
  · cases fuel with
    | zero =>
      exact ⟨rfl, rfl⟩
    | succ fuel =>
      rw [add, sub]
      by_cases hneg : b.neg = true
      · rw [if_pos hneg, if_pos hneg]
        have hpositive : (b.negate true).neg = false := negate_neg hneg (fun _ => hb)
        cases fuel with
        | zero =>
          exact ⟨rfl, rfl⟩
        | succ fuel =>
          rw [add, sub, hpositive,
            if_pos hzero.1, if_pos hzero.1, (diverges_right fuel _ a hzero).2,
            (diverges_right fuel _ _ (negativeZero_negate hzero)).2]
          exact ⟨rfl, rfl⟩
      · rw [if_neg hneg, if_neg hneg, if_pos hzero.1, if_pos hzero.1,
          (diverges_right fuel b a hzero).2,
          (diverges_right fuel b _ (negativeZero_negate hzero)).2]
        exact ⟨rfl, rfl⟩

/-- The operands that the two operators can deal with. -/
def Signed (elided : Bool) (a b : BigNum) : Prop :=
  elided = true → ¬a.NegativeZero ∧ ¬b.NegativeZero

theorem signed_of_some (hsome : add elided fuel a b = some r ∨ sub elided fuel a b = some r) :
    Signed elided a b := by
  rintro rfl
  constructor
  · intro hzero
    obtain ⟨hadd, hsub⟩ := diverges_left fuel a b hzero
    simp [hadd, hsub] at hsome
  · intro hzero
    obtain ⟨hadd, hsub⟩ := diverges_right fuel a b hzero
    simp [hadd, hsub] at hsome

theorem add_sub_eq (hsigned : Signed elided a b) (fuel : Nat) :
    add elided (fuel + 4) a b = some (
      match a.neg, b.neg with
      | false, false => returned elided (addMagnitudes a b)
      | false, true => subMagnitudes a (b.negate elided)
      | true, false => subMagnitudes b (a.negate elided)
      | true, true => negate elided
          (returned elided (addMagnitudes (b.negate elided) (a.negate elided)))) ∧
    sub elided (fuel + 4) a b = some (
      match a.neg, b.neg with
      | false, false => subMagnitudes a b
      | false, true => returned elided (addMagnitudes a (b.negate elided))
      | true, false => negate elided (returned elided (addMagnitudes b (a.negate elided)))
      | true, true => subMagnitudes (b.negate elided) (a.negate elided)) := by
  have ha := fun hneg : a.neg = true => negate_neg hneg (fun h => (hsigned h).1)
  have hb := fun hneg : b.neg = true => negate_neg hneg (fun h => (hsigned h).2)
  cases hna : a.neg <;> cases hnb : b.neg
  · simp [add, sub, hna, hnb]
  · simp [add, sub, hna, hnb, hb hnb]
  · simp [add, sub, hna, hnb, ha hna]
  · simp [add, sub, hna, hnb, hb hnb, ha hna]

/-- The operands of `operator+` whose sum is right. -/
def Addable (elided : Bool) (a b : BigNum) : Prop :=
  Signed elided a b ∧ (a.neg = false → b.neg = true → Ordered a (b.negate elided)) ∧
    (a.neg = true → b.neg = false → Ordered b (a.negate elided))

/-- The operands of `operator-` whose difference is right. -/
def Subtractable (elided : Bool) (a b : BigNum) : Prop :=
  Signed elided a b ∧ (a.neg = false → b.neg = false → Ordered a b)

theorem toInt_of_neg (hneg : n.neg = true) : n.toInt = -(n.magnitude : Int) := by
  rw [toInt, if_pos hneg]

theorem toInt_of_pos (hneg : n.neg = false) : n.toInt = n.magnitude := by
  rw [toInt, hneg, if_neg Bool.false_ne_true]

theorem neg_of_toInt_neg (hlt : n.toInt < 0) : n.neg = true := by
  by_contra hnot
  have hpos := toInt_of_pos (Bool.eq_false_of_not_eq_true hnot)
  omega

theorem toInt_subMagnitudes_iff (a b : BigNum) :
    (subMagnitudes a b).toInt = (a.magnitude : Int) - b.magnitude ↔ Ordered a b :=
  ⟨ordered_of_toInt_subMagnitudes, toInt_subMagnitudes⟩

theorem adds_iff (a b : BigNum) :
    (∃ fuel r, add elided fuel a b = some r ∧ r.toInt = a.toInt + b.toInt) ↔
      Addable elided a b := by
  have hresult := exists_result_iff (fun fuel => (@add_sub_succ elided fuel).1 a b)
    (fun _ _ hadd => signed_of_some (Or.inl hadd))
    (fun hsigned => by rw [(add_sub_eq hsigned 0).1]; rfl)
    fun r => r.toInt = a.toInt + b.toInt
  rw [hresult]
  refine and_congr_right ?_
  intro hsigned
  rw [(add_sub_eq hsigned 0).1]
  cases hna : a.neg <;> cases hnb : b.neg
  · simp [toInt_of_pos hna, toInt_of_pos hnb]
  · have hiff := toInt_subMagnitudes_iff a (b.negate elided)
    simpa [toInt_of_pos hna, toInt_of_neg hnb, Int.sub_eq_add_neg] using hiff
  · have hiff := toInt_subMagnitudes_iff b (a.negate elided)
    simpa [toInt_of_neg hna, toInt_of_pos hnb, Int.sub_eq_add_neg, Int.add_comm] using hiff
  · simp [toInt_of_neg hna, toInt_of_neg hnb]

theorem subtracts_iff (a b : BigNum) :
    (∃ fuel r, sub elided fuel a b = some r ∧ r.toInt = a.toInt - b.toInt) ↔
      Subtractable elided a b := by
  have hresult := exists_result_iff (fun fuel => (@add_sub_succ elided fuel).2 a b)
    (fun _ _ hsub => signed_of_some (Or.inr hsub))
    (fun hsigned => by rw [(add_sub_eq hsigned 0).2]; rfl)
    fun r => r.toInt = a.toInt - b.toInt
  rw [hresult]
  refine and_congr_right ?_
  intro hsigned
  rw [(add_sub_eq hsigned 0).2]
  cases hna : a.neg <;> cases hnb : b.neg
  · simpa [toInt_of_pos hna, toInt_of_pos hnb] using toInt_subMagnitudes_iff a b
  · simp [toInt_of_pos hna, toInt_of_neg hnb]
  · simp [toInt_of_neg hna, toInt_of_pos hnb]
    omega
  · have hvalue := toInt_subMagnitudes
      ((stripped_negate elided b).ordered (stripped_negate elided a))
    simp [toInt_of_neg hna, toInt_of_neg hnb, hvalue]
    omega

end Sum

/-! ### Shifts and products -/

@[simp]
theorem magnitude_shiftLeft (n : BigNum) (shift : UInt32) :
    (n.shiftLeft shift).magnitude = n.magnitude * 2 ^ shift.toNat := by
  have hsplit : shift.toNat = 32 * (shift >>> 5).toNat + (shift &&& 0x1F).toNat := by
    rw [UInt32.toNat_shiftRight, UInt32.toNat_and]
    have hand : shift.toNat &&& 31 = shift.toNat % 32 := and_two_pow_sub_one_eq_mod _ 5
    simp only [UInt32.reduceToNat, Nat.reduceMod]
    omega
  have hpow : 2 ^ shift.toNat = radix ^ (shift >>> 5).toNat * 2 ^ (shift &&& 0x1F).toNat := by
    rw [hsplit, Nat.pow_add, Nat.pow_mul]
    congr 2
  rw [shiftLeft]
  split
  · rename_i hzero
    rw [hzero]
    simp
  · dsimp only
    split
    · rename_i hzero
      rw [magnitude_stripLz, magnitude, value_append, hpow, hzero]
      simp [magnitude, Nat.mul_comm]
    · have hlt : (shift &&& 0x1F).toNat < 32 := by
        exact Nat.lt_of_le_of_lt and_le_right (by decide)
      rw [magnitude_stripLz, magnitude, value_append,
        shiftDigits_value hlt _ _ (Nat.pow_pos (by decide)), hpow]
      simp only [value_replicate_zero, length_replicate, magnitude, UInt32.toNat_zero]
      ring

theorem stripped_shiftLeft (n : BigNum) (shift : UInt32) : (n.shiftLeft shift).Stripped := by
  rw [shiftLeft]
  split
  · exact stripped_stripLz _
  · dsimp only
    split <;> exact stripped_stripLz _

theorem toInt_stripLz_mk (digits : List UInt32) (neg : Bool) (hsome : digits ≠ []) :
    (stripLz ⟨digits, neg, hsome⟩).toInt = if neg then -(value digits : Int) else value digits := by
  rw [toInt_stripLz]
  rfl

theorem toInt_shiftLeft (n : BigNum) (shift : UInt32) :
    (n.shiftLeft shift).toInt = n.toInt * 2 ^ shift.toNat := by
  by_cases hzero : n.magnitude = 0
  · rw [toInt_eq_zero hzero, toInt_eq_zero (by rw [magnitude_shiftLeft, hzero, Nat.zero_mul]),
      Int.zero_mul]
  · have hmagnitude := magnitude_shiftLeft n shift
    have hne : (n.shiftLeft shift).magnitude ≠ 0 := by
      rw [hmagnitude]
      exact Nat.mul_ne_zero hzero (Nat.pow_pos (by decide)).ne'
    have hneg : (n.shiftLeft shift).neg = n.neg := by
      rw [shiftLeft] at hne ⊢
      split
      · exact stripLz_neg hzero
      · rw [if_neg (by assumption)] at hne
        dsimp only at hne ⊢
        split
        · rw [if_pos (by assumption), magnitude_stripLz] at hne
          exact stripLz_neg hne
        · rw [if_neg (by assumption), magnitude_stripLz] at hne
          exact stripLz_neg hne
    rw [toInt, toInt, hneg]
    split <;> simp

theorem sign_mul (x y : Bool) (m n : Int) :
    (if x ^^ y then -(m * n) else m * n) = (if x then -m else m) * (if y then -n else n) := by
  cases x <;> cases y <;> simp

theorem toInt_mulDigit (a : BigNum) (b : UInt32) (bneg : Bool) :
    (a.mulDigit b bneg).toInt = a.toInt * (if bneg then -(b.toNat : Int) else b.toNat) := by
  rw [mulDigit]
  split
  · rw [toInt_stripLz_mk, mulDigits_value b a.digits 0 radix_pos]
    simp only [UInt64.toNat_zero, Nat.add_zero, cast_mul]
    exact sign_mul _ _ _ _
  · rename_i hsmall
    split
    · rename_i hone
      rw [toInt_stripLz, hone]
      have hsign := sign_mul a.neg bneg a.magnitude 1
      simpa [toInt, magnitude] using hsign
    · split
      · rename_i htwo
        have hshift := magnitude_shiftLeft a 1
        have hsign := sign_mul a.neg bneg a.magnitude 2
        rw [toInt_stripLz, htwo]
        simp only [magnitude] at hshift hsign
        simpa [toInt, magnitude, hshift] using hsign
      · rename_i hone htwo
        have hzero : b = 0 := by
          apply UInt32.toNat.inj
          have hle : b.toNat ≤ 2 := Nat.le_of_not_lt hsmall
          have hne1 : b.toNat ≠ 1 := fun h => hone (UInt32.toNat.inj h)
          have hne2 : b.toNat ≠ 2 := fun h => htwo (UInt32.toNat.inj h)
          have hnone : b.toNat = 0 := by omega
          rw [hnone]
          rfl
        rw [hzero]
        simp

theorem toInt_mulOrdered (a b : BigNum) : (mulOrdered a b).toInt = a.toInt * b.toInt := by
  rw [mulOrdered]
  split
  · rename_i hone
    obtain ⟨x, hx⟩ := length_eq_one_iff.mp hone
    rw [toInt_mulDigit, Int.mul_comm]
    congr 1
    rw [toInt, magnitude, hx]
    simp
  · have hvalue := mulRows_value a.digits b.digits (List.replicate b.length 0)
      length_replicate
    rw [replicate_append_replicate] at hvalue
    have hlength : a.length + b.length = b.length + a.digits.length := Nat.add_comm _ _
    rw [toInt_stripLz_mk, hlength, hvalue, value_replicate_zero, Nat.add_zero, cast_mul]
    exact sign_mul _ _ _ _

theorem toInt_mul (a b : BigNum) : (mul a b).toInt = a.toInt * b.toInt := by
  rw [mul]
  split
  · rw [toInt_mulOrdered, Int.mul_comm]
  · exact toInt_mulOrdered a b

/-! ### Comparison -/

theorem compare_magnitudes (hsame : (a.neg && strip a.digits ≠ []) =
    (b.neg && strip b.digits ≠ [])) : compare a b = Ord.compare a.magnitude b.magnitude := by
  rw [compare, if_neg (not_not.mpr hsame)]
  split
  · rename_i hlength
    rw [compareTop_reverse hlength, value_strip, value_strip, magnitude, magnitude]
  · split
    · rename_i hgt
      exact (compare_gt_iff_gt.mpr (value_lt_of_strip_length_lt hgt)).symm
    · exact (compare_lt_iff_lt.mpr (value_lt_of_strip_length_lt (by omega))).symm

/-- The six comparison operators agree with the order of the integers. -/
def Compares (a b : BigNum) : Prop :=
  (lt a b = true ↔ a.toInt < b.toInt) ∧ (gt a b = true ↔ a.toInt > b.toInt) ∧
    (le a b = true ↔ a.toInt ≤ b.toInt) ∧ (ge a b = true ↔ a.toInt ≥ b.toInt) ∧
    (eq a b = true ↔ a.toInt = b.toInt) ∧ (ne a b = true ↔ a.toInt ≠ b.toInt)

theorem compares_iff (a b : BigNum) :
    Compares a b ↔ compare a b = Ord.compare a.toInt b.toInt := by
  constructor
  · rintro ⟨hlt, hgt, -, -, heq, -⟩
    rcases lt_trichotomy a.toInt b.toInt with h | h | h
    · rw [compare_lt_iff_lt.mpr h]
      exact of_decide_eq_true (hlt.mpr h)
    · rw [compare_eq_iff_eq.mpr h]
      exact of_decide_eq_true (heq.mpr h)
    · rw [compare_gt_iff_gt.mpr h]
      exact of_decide_eq_true (hgt.mpr h)
  · intro hcompare
    simp only [Compares, lt, gt, le, ge, eq, ne, hcompare, decide_eq_true_eq]
    exact ⟨compare_lt_iff_lt, compare_gt_iff_gt, compare_le_iff_le, compare_ge_iff_ge,
      compare_eq_iff_eq, compare_eq_iff_eq.not⟩

/-- The operands whose comparison is right: not two negative numbers that
differ, and not a negative zero and a negative number. -/
def Comparable (a b : BigNum) : Prop := a.neg = true → b.toInt < 0 → a.toInt = b.toInt

theorem compare_cast (m n : Nat) : Ord.compare (m : Int) (n : Int) = Ord.compare m n := by
  simp only [Ord.compare, compareOfLessAndEq, cast_lt, Nat.cast_inj]

theorem negative_eq (n : BigNum) : (n.neg && strip n.digits ≠ []) = decide (n.toInt < 0) := by
  have hnil : strip n.digits = [] ↔ n.magnitude = 0 := strip_eq_nil
  cases hneg : n.neg
  · simp [toInt_of_pos hneg]
  · simp [toInt_of_neg hneg, hnil, Nat.pos_iff_ne_zero]

theorem compare_iff (a b : BigNum) :
    compare a b = Ord.compare a.toInt b.toInt ↔ Comparable a b := by
  by_cases hsame : (a.toInt < 0 ↔ b.toInt < 0)
  · have hmagnitudes : compare a b = Ord.compare a.magnitude b.magnitude := by
      apply compare_magnitudes
      rw [negative_eq, negative_eq]
      exact decide_eq_decide.mpr hsame
    rw [hmagnitudes]
    by_cases hb : b.toInt < 0
    · -- two negative numbers are compared the wrong way round
      have hna := neg_of_toInt_neg (hsame.mpr hb)
      have hnb := neg_of_toInt_neg hb
      have ha := toInt_of_neg hna
      have hbneg := toInt_of_neg hnb
      constructor
      · intro hcompare _ _
        rcases Nat.lt_trichotomy a.magnitude b.magnitude with hlt | heq | hgt
        · have hright := compare_lt_iff_lt.mp (hcompare.symm.trans (compare_lt_iff_lt.mpr hlt))
          omega
        · omega
        · have hright := compare_gt_iff_gt.mp (hcompare.symm.trans (compare_gt_iff_gt.mpr hgt))
          omega
      · intro hcomparable
        have heq := hcomparable hna hb
        rw [compare_eq_iff_eq.mpr heq, compare_eq_iff_eq]
        omega
    · have ha : ¬a.toInt < 0 := fun hneg => hb (hsame.mp hneg)
      have hcasts : a.toInt = a.magnitude ∧ b.toInt = b.magnitude := by
        constructor
        · rw [toInt] at ha ⊢
          split at ha <;> simp_all
        · rw [toInt] at hb ⊢
          split at hb <;> simp_all
      rw [hcasts.1, hcasts.2, compare_cast]
      refine ⟨fun _ _ hneg => ?_, fun _ => rfl⟩
      exact absurd hneg hb
  · have hdiffer : compare a b = if a.neg then .lt else .gt := by
      rw [compare, if_pos]
      rw [negative_eq, negative_eq]
      exact fun heq => hsame (decide_eq_decide.mp heq)
    rw [hdiffer]
    by_cases hb : b.toInt < 0
    · have ha : ¬a.toInt < 0 := fun hneg => hsame (iff_of_true hneg hb)
      have hgt : Ord.compare a.toInt b.toInt = .gt := compare_gt_iff_gt.mpr (by omega)
      rw [hgt, Comparable]
      cases a.neg
      · simp
      · simp [hb]
        omega
    · have ha : a.toInt < 0 := by
        by_contra hnot
        exact hsame (iff_of_false hnot hb)
      rw [neg_of_toInt_neg ha]
      refine ⟨fun _ _ hneg => absurd hneg hb, fun _ => ?_⟩
      exact (compare_lt_iff_lt.mpr (by omega)).symm

/-! ### All operators -/

/-- Negation, products and shifts agree with those of the integers. The other
operators do exactly on the operands named. -/
theorem arithmetic_agrees_iff (elided : Bool) (a b : BigNum) (shift : UInt32) :
    ((∃ fuel r, add elided fuel a b = some r ∧ r.toInt = a.toInt + b.toInt) ↔
        Addable elided a b) ∧
      ((∃ fuel r, sub elided fuel a b = some r ∧ r.toInt = a.toInt - b.toInt) ↔
        Subtractable elided a b) ∧
      (a.negate elided).toInt = -a.toInt ∧
      (mul a b).toInt = a.toInt * b.toInt ∧
      (a.shiftLeft shift).toInt = a.toInt * 2 ^ shift.toNat ∧
      (Compares a b ↔ Comparable a b) :=
  ⟨adds_iff a b, subtracts_iff a b, toInt_negate elided a, toInt_mul a b, toInt_shiftLeft a shift,
    (compares_iff a b).trans (compare_iff a b)⟩

/-- `-1` is less than `-2`, `1 - 5` is positive where the `1` was set from bytes
with leading zeroes, and nothing can be added to a negated zero. -/
theorem arithmetic_disagrees :
    lt ((ofUInt32 1).negate true) ((ofUInt32 2).negate true) = true ∧
      lt ((ofUInt32 1).negate false) ((ofUInt32 2).negate false) = true ∧
      (∃ n, setBytes [0, 0, 0, 0, 1] = some n ∧ n.toInt = 1 ∧
        (sub true 4 n (ofUInt32 5)).map toInt = some 18446744073709551612) ∧
      ∀ fuel, add true fuel (ofUInt32 1) (zero.negate true) = none := by
  refine ⟨by decide, by decide, ⟨_, rfl, by decide, by decide⟩, ?_⟩
  intro fuel
  exact (diverges_right fuel _ _ ⟨by decide, by decide⟩).1

end AllJoyn.Crypto.BigNum
