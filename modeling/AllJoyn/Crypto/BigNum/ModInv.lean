import AllJoyn.Crypto.BigNum.DivisionCorrect
import AllJoyn.Lib.Euclid

/-!
`BigNum::mod_inv` for any division of numbers that are not negative.
-/

namespace AllJoyn.Crypto.BigNum

open Lib Lib.Limbs

section

variable (elided : Bool) (divide : BigNum → BigNum → Option (BigNum × BigNum))

/-- The loop of `mod_inv`: `u1`, `u3` and whether `iter` is negative, at its end. -/
def modInvLoop : Nat → BigNum → BigNum → BigNum → BigNum → Bool →
    Option (BigNum × BigNum × Bool)
  | 0, _, _, _, _, _ => none
  | fuel + 1, u1, u3, v1, v3, odd =>
    if v3.ne zero then do
      let (q, t3) ← divide u3 v3
      let t1 ← add elided (fuel + 4) u1 (mul q v1)
      modInvLoop fuel v1 v3 t1 t3 (!odd)
    else some (u1, u3, odd)

/-- `BigNum::mod_inv`, with `div elided` for the division. -/
def modInv (fuel : Nat) (n mod : BigNum) : Option BigNum := do
  let (u1, u3, odd) ←
    modInvLoop elided divide fuel (ofUInt32 1) n.stripLz zero mod.stripLz false
  if u3.ne (ofUInt32 1) then return zero
  returned elided <$> if odd then sub elided (fuel + 4) mod u1 else some u1

/-- The quotients and remainders of the numbers from 0 to `limit` are those of the
integers. -/
def DividesUpTo (limit : Int) : Prop :=
  ∀ x y : BigNum, 0 ≤ x.toInt → x.toInt ≤ limit → 0 < y.toInt → y.toInt ≤ limit →
    ∃ q r, divide x y = some (q, r) ∧ x.toInt = q.toInt * y.toInt + r.toInt ∧
      0 ≤ r.toInt ∧ r.toInt < y.toInt

end

variable {divide : BigNum → BigNum → Option (BigNum × BigNum)}
  {n mod u1 u3 v1 v3 a b : BigNum} {odd : Bool}

/-! ### Numbers without leading zeroes and without a sign -/

theorem plain_mul (hnonneg : 0 ≤ (mul a b).toInt) : Plain (mul a b) := by
  have hordered : ∀ a b, ∃ product, mulOrdered a b = stripLz product := by
    intro a b
    rw [mulOrdered]
    split
    · exact mulDigit_stripLz _ _ _
    · exact ⟨_, rfl⟩
  have hproduct : ∃ product, mul a b = stripLz product := by
    rw [mul]
    split <;> exact hordered _ _
  obtain ⟨product, hproduct⟩ := hproduct
  rw [hproduct, toInt_stripLz] at hnonneg
  exact hproduct ▸ plain_stripLz hnonneg

theorem plain_addMagnitudes (ha : a.Stripped) (hb : b.Stripped) : Plain (addMagnitudes a b) := by
  have hstripped : ∀ (a b : BigNum) (hsome), a.Stripped → b.length ≤ a.length →
      Stripped ⟨addDigits a.digits b.digits 0, false, hsome⟩ := by
    intro a b hsome ha hle
    obtain ⟨hvalue, hsame | ⟨hmore, hcarry⟩⟩ :=
      addDigits_spec a.digits b.digits 0 hle (by decide)
    · rw [Stripped, length, hsame, magnitude, hvalue]
      exact ha.imp_right fun hmagnitude =>
        le_trans hmagnitude (Nat.le_trans (Nat.le_add_right _ _) (Nat.le_add_right _ _))
    · right
      rw [length, hmore]
      exact hcarry
  rw [addMagnitudes]
  split
  · exact ⟨rfl, hstripped a b _ ha (by assumption)⟩
  · exact ⟨rfl, hstripped b a _ hb (by omega)⟩

variable (elided : Bool)

theorem Plain.add (ha : Plain a) (hb : Plain b) (fuel : Nat) :
    ∃ r, BigNum.add elided (fuel + 4) a b = some r ∧ Plain r ∧ r.toInt = a.toInt + b.toInt := by
  have hsum : (addMagnitudes a b).toInt = a.toInt + b.toInt := by
    rw [toInt_addMagnitudes, toInt_of_pos ha.pos, toInt_of_pos hb.pos]
  have hplain := plain_addMagnitudes ha.stripped hb.stripped
  refine ⟨returned elided (addMagnitudes a b), ?_, ?_, (toInt_returned _ _).trans hsum⟩
  · rw [BigNum.add, hb.pos, ha.pos]
    rfl
  · cases elided
    · exact plain_stripLz (by rw [toInt_of_pos hplain.pos]; omega)
    · exact hplain

theorem Plain.sub (hb : Plain b) (hpos : 0 < a.toInt) (hle : 0 ≤ a.toInt - b.toInt)
    (fuel : Nat) :
    ∃ r, BigNum.sub elided (fuel + 4) a b = some r ∧ r.toInt = a.toInt - b.toInt := by
  have ha := (pos_of_toInt_pos hpos).1
  rw [toInt_of_pos ha, toInt_of_pos hb.pos] at hle ⊢
  have hordered : Ordered a b := ⟨fun _ => by omega, hb.stripped.magnitude_le⟩
  refine ⟨subMagnitudes a b, ?_, toInt_subMagnitudes hordered⟩
  rw [BigNum.sub, hb.pos, ha]
  rfl

theorem ne_iff (hb : 0 ≤ b.toInt) : a.ne b = true ↔ a.toInt ≠ b.toInt := by
  have hcomparable : Comparable a b := fun _ hneg => absurd hneg (not_lt.mpr hb)
  exact ((compares_iff a b).mpr ((compare_iff a b).mpr hcomparable)).2.2.2.2.2

/-! ### The loop -/

/-- With more room than the divisor is large the loop ends, at the greatest common
divisor. -/
theorem modInvLoop_ends {x m limit : Int} (hdivides : DividesUpTo divide limit)
    (fuel : Nat) (hfuel : v3.toInt < fuel) (hu1 : Plain u1) (hv1 : Plain v1)
    (hlimit : u3.toInt ≤ limit ∧ v3.toInt ≤ limit)
    (hinv : Euclid.Invariant x m u1.toInt u3.toInt v1.toInt v3.toInt odd) :
    ∃ u1' u3' v1' odd', modInvLoop elided divide fuel u1 u3 v1 v3 odd = some (u1', u3', odd') ∧
      Plain u1' ∧ Euclid.Invariant x m u1'.toInt u3'.toInt v1' 0 odd' := by
  induction fuel generalizing u1 u3 v1 v3 odd with
  | zero => exact absurd hfuel (not_lt.mpr (by simpa using hinv.remainders.2))
  | succ fuel ih =>
    rw [modInvLoop]
    by_cases hzero : v3.toInt = 0
    · have hstop : ¬ v3.ne zero = true := by
        rw [ne_iff (le_refl 0)]
        exact not_not.mpr hzero
      rw [if_neg hstop]
      rw [hzero] at hinv
      exact ⟨u1, u3, v1.toInt, odd, rfl, hu1, hinv⟩
    · have hgo : v3.ne zero = true := by
        rw [ne_iff (le_refl 0)]
        exact hzero
      have hpos : 0 < v3.toInt := lt_of_le_of_ne hinv.remainders.2 (Ne.symm hzero)
      obtain ⟨q, t3, hdivide, hsplit, hlow, hhigh⟩ :=
        hdivides u3 v3 hinv.remainders.1 hlimit.1 hpos hlimit.2
      obtain ⟨hquotient, hremainder⟩ : u3.toInt / v3.toInt = q.toInt ∧
          u3.toInt % v3.toInt = t3.toInt :=
        (Int.ediv_emod_unique hpos).mpr ⟨by rw [hsplit]; ring, hlow, hhigh⟩
      have hnonneg : 0 ≤ (mul q v1).toInt := by
        rw [toInt_mul, ← hquotient]
        exact mul_nonneg (Int.ediv_nonneg hinv.remainders.1 hpos.le) hinv.coefficients.2
      obtain ⟨t1, hadd, ht1, hsum⟩ := hu1.add elided (plain_mul hnonneg) fuel
      have hnext := hinv.step hpos
      rw [hquotient, hremainder, ← toInt_mul, ← hsum] at hnext
      rw [if_pos hgo]
      simp only [hdivide, hadd, Option.bind_eq_bind, Option.bind_some]
      exact ih (by omega) hv1 ht1 (by omega) hnext

/-- `mod_inv` ends, and returns the inverse of `n` modulo `mod` in its range, the only
one there, or 0 where they have a common factor. -/
theorem modInv_spec (elided : Bool) (divide : BigNum → BigNum → Option (BigNum × BigNum))
    (n mod : BigNum) (hdivides : DividesUpTo divide (max n.toInt mod.toInt))
    (hn : 0 ≤ n.toInt) (hmod : 2 ≤ mod.toInt) :
    ∃ enough, ∀ fuel ≥ enough, ∃ inv, modInv elided divide fuel n mod = some inv ∧
      (Int.gcd n.toInt mod.toInt = 1 → 0 < inv.toInt ∧ inv.toInt < mod.toInt ∧
        n.toInt * inv.toInt ≡ 1 [ZMOD mod.toInt] ∧
        ∀ y, 0 < y → y < mod.toInt → n.toInt * y ≡ 1 [ZMOD mod.toInt] → y = inv.toInt) ∧
      (Int.gcd n.toInt mod.toInt ≠ 1 → inv.toInt = 0) := by
  refine ⟨mod.toInt.toNat + 1, fun fuel hfuel => ?_⟩
  have hstart : Euclid.Invariant n.toInt mod.toInt (ofUInt32 1).toInt n.stripLz.toInt zero.toInt
      mod.stripLz.toInt false := by
    rw [toInt_stripLz, toInt_stripLz]
    exact .start hn (by omega)
  obtain ⟨u1, u3, v1, odd, hloop, hu1, hend⟩ := modInvLoop_ends elided hdivides fuel
    (by rw [toInt_stripLz]; omega) ⟨rfl, Or.inl rfl⟩ ⟨rfl, Or.inl rfl⟩ (by simp) hstart
  have hgcd : u3.toInt = Int.gcd n.toInt mod.toInt := by
    rw [← hend.gcd, Int.gcd_zero_right, Int.natAbs_of_nonneg hend.remainders.1]
  have hone : u3.ne (ofUInt32 1) = true ↔ u3.toInt ≠ 1 := ne_iff (by decide)
  simp only [modInv, hloop, Option.bind_eq_bind, Option.bind_some]
  by_cases hcoprime : Int.gcd n.toInt mod.toInt = 1
  · have hdone : ¬ u3.ne (ofUInt32 1) = true := by
      rw [hone, hgcd, hcoprime]
      simp
    rw [hgcd, hcoprime, Nat.cast_one] at hend
    obtain ⟨hlow, hhigh, hinverse⟩ := hend.inverse hmod
    have hresult : ∃ inv, (if odd then sub elided (fuel + 4) mod u1 else some u1) = some inv ∧
        inv.toInt = if odd then mod.toInt - u1.toInt else u1.toInt := by
      cases odd with
      | false => exact ⟨u1, rfl, rfl⟩
      | true => exact hu1.sub elided (by omega) (by simpa using hlow.le) fuel
    obtain ⟨inv, hinv, hvalue⟩ := hresult
    rw [if_neg hdone, hinv]
    refine ⟨_, rfl, fun _ => ?_, fun hnot => absurd hcoprime hnot⟩
    rw [toInt_returned, hvalue]
    refine ⟨hlow, hhigh, hinverse, fun y hy hy' hxy => ?_⟩
    exact Euclid.inverse_unique ⟨hy.le, hy'⟩ ⟨hlow.le, hhigh⟩ hxy hinverse
  · have hnone : u3.ne (ofUInt32 1) = true := by
      rw [hone, hgcd]
      exact_mod_cast hcoprime
    rw [if_pos hnone]
    exact ⟨zero, rfl, fun h => absurd h hcoprime, fun _ => rfl⟩

/-- The division of the library is that of the integers on numbers of two digits. -/
theorem modInv_spec_seven : DividesUpTo (div true) (max (view [3]).toInt (view [7]).toInt) ∧
    ∃ enough, ∀ fuel ≥ enough, ∃ inv,
      modInv true (div true) fuel (view [3]) (view [7]) = some inv ∧ inv.toInt = 5 := by
  have hdivides : DividesUpTo (div true) (max (view [3]).toInt (view [7]).toInt) := by
    intro x y hx hlimit hy _
    refine divides_of_short hx hy fun _ _ => (stripped_stripLz x).length_le (by decide) ?_
    have hseven : max (view [3]).toInt (view [7]).toInt = 7 := by decide
    have hradix : 7 < radix ^ 2 := by decide
    rw [magnitude_stripLz, ← natAbs_toInt]
    omega
  obtain ⟨enough, hresult⟩ :=
    modInv_spec true (div true) (view [3]) (view [7]) hdivides (by decide) (by decide)
  refine ⟨hdivides, enough, fun fuel hfuel => ?_⟩
  obtain ⟨inv, hinv, hcoprime, -⟩ := hresult fuel hfuel
  exact ⟨inv, hinv, ((hcoprime (by decide)).2.2.2 5 (by decide) (by decide) (by decide)).symm⟩

end AllJoyn.Crypto.BigNum
