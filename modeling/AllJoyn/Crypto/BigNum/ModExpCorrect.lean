import AllJoyn.Crypto.BigNum.DivisionCorrect
import AllJoyn.Crypto.BigNum.MontyCorrect
import Mathlib.Data.Nat.Digits.Defs

/-!
`mod_exp` returns the power modulo `m`, provided that `%` returns remainders.
-/

namespace AllJoyn.Crypto.BigNum

open Lib.Limbs Lib.Montgomery List

/-! ### The bits of the exponent -/

theorem testBit_eq (n : BigNum) (i : Nat) : n.testBit i = n.magnitude.testBit i := by
  have hindex : i >>> 5 = i / 32 := Nat.shiftRight_eq_div_pow i 5
  have hbit : i &&& 0x1F = i % 32 := Nat.and_two_pow_sub_one_eq_mod i 5
  have hlt : i % 32 < 32 := Nat.mod_lt _ (by decide)
  have hmask : (1 <<< UInt32.ofNat (i % 32) : UInt32).toNat = 2 ^ (i % 32) := by
    have hshift : (UInt32.ofNat (i % 32)).toNat = i % 32 :=
      UInt32.toNat_ofNat_of_lt' (hlt.trans (by decide))
    have hpow : 2 ^ (i % 32) < 2 ^ 32 := Nat.pow_lt_pow_right (by decide) hlt
    rw [UInt32.toNat_shiftLeft, hshift, Nat.mod_eq_of_lt hlt]
    simp only [UInt32.reduceToNat, Nat.one_shiftLeft]
    exact Nat.mod_eq_of_lt hpow
  have hdigit : (n.digits.getD (i / 32) 0).toNat.testBit (i % 32) = n.magnitude.testBit i := by
    rw [getD_toNat, radix_pow]
    have hradix : radix = 2 ^ 32 := rfl
    rw [hradix, Nat.testBit_mod_two_pow, Nat.testBit_div_two_pow, Nat.mod_add_div]
    simp [hlt, magnitude]
  rw [testBit, hindex, hbit, Bool.eq_iff_iff, decide_eq_true_eq, ← hdigit]
  constructor
  · intro hne
    by_contra hfalse
    apply hne
    apply UInt32.toNat.inj
    rw [UInt32.toNat_and, hmask, Nat.and_two_pow, Bool.eq_false_of_not_eq_true hfalse]
    simp
  · intro htrue hzero
    have hnat := congrArg UInt32.toNat hzero
    rw [UInt32.toNat_and, hmask, Nat.and_two_pow, htrue] at hnat
    simp at hnat

theorem bitLen_spec (n : BigNum) :
    n.magnitude < 2 ^ n.bitLen ∧ (0 < n.bitLen → n.magnitude.testBit (n.bitLen - 1) = true) := by
  rw [bitLen]
  split
  · rename_i hsome
    have hvalue : n.magnitude = value (strip n.digits).dropLast +
        radix ^ ((strip n.digits).length - 1) * ((strip n.digits).getLast hsome).toNat := by
      have hconcat := value_concat (strip n.digits).dropLast ((strip n.digits).getLast hsome)
      rw [dropLast_append_getLast, length_dropLast, value_strip] at hconcat
      exact hconcat
    have hlow := value_lt (strip n.digits).dropLast
    rw [length_dropLast] at hlow
    have htop : (strip n.digits).getLast hsome ≠ 0 := by
      intro hzero
      have hge := pow_le_value_strip n.digits hsome
      rw [hzero, UInt32.toNat_zero, magnitude] at hvalue
      omega
    generalize (strip n.digits).getLast hsome = top at hvalue htop
    generalize (strip n.digits).length - 1 = k at hvalue hlow
    have hnat : top.toNat ≠ 0 := fun hzero => htop (UInt32.toNat.inj hzero)
    have hge : 2 ^ top.toNat.log2 ≤ top.toNat := Nat.log2_self_le hnat
    have hlt : top.toNat + 1 ≤ 2 ^ (top.toNat.log2 + 1) := Nat.lt_log2_self
    have hexp : ∀ j, 2 ^ (k * 32 + j) = radix ^ k * 2 ^ j := by
      intro j
      rw [radix_pow, ← Nat.pow_add, Nat.mul_comm k]
    have hupper : n.magnitude < 2 ^ (k * 32 + (top.toNat.log2 + 1)) := by
      rw [hexp]
      have hmul := Nat.mul_le_mul_left (radix ^ k) hlt
      rw [Nat.mul_add] at hmul
      omega
    have hlower : 2 ^ (k * 32 + top.toNat.log2) ≤ n.magnitude := by
      rw [hexp, hvalue]
      exact (Nat.mul_le_mul_left _ hge).trans (Nat.le_add_left _ _)
    rw [log2_toNat htop]
    have hsum : k * 32 + 1 + top.toNat.log2 = k * 32 + (top.toNat.log2 + 1) := by omega
    rw [hsum]
    refine ⟨hupper, ?_⟩
    intro _
    exact Nat.testBit_of_two_pow_le_and_two_pow_add_one_gt hlower hupper
  · rename_i hnil
    have hzero : n.magnitude = 0 := strip_eq_nil.mp (not_not.mp hnil)
    rw [hzero]
    exact ⟨by decide, fun h => absurd h (by decide)⟩

theorem shiftRight_bitLen (n : BigNum) : n.magnitude >>> n.bitLen = 0 := by
  rw [Nat.shiftRight_eq_div_pow]
  exact Nat.div_eq_of_lt (bitLen_spec n).1

/-! ### Odd moduli -/

section Monty

variable {m x e : BigNum} {base : Nat} {rho : UInt32} (hmneg : m.neg = false)
  (hmpos : 0 < m.magnitude)
  (hrho : (rho.toNat * (m.digits.getD 0 0).toNat + 1) % radix = 0)
  (hcoprime : Nat.Coprime m.magnitude (radix ^ m.length)) (hxlt : x.magnitude < m.magnitude)
  (hxlength : x.length ≤ m.length)
  (hx : Represents (radix ^ m.length) m.magnitude x.magnitude base)

include hmneg hmpos hrho hcoprime hxlt hxlength hx

/-- The loop over the bits below `i`, from the power for the bits above. The
storage of `tmp2` is there as soon as a bit can be clear. -/
theorem montyLoop_some (i : Nat) {a : BigNum} {tmp1 tmp2 : List UInt32}
    (halt : a.magnitude < m.magnitude) (halength : a.length ≤ m.length)
    (ha : Represents (radix ^ m.length) m.magnitude a.magnitude (base ^ (e.magnitude >>> i)))
    (htmp1 : Reusable m.length tmp1) (htmp2 : Reusable m.length tmp2)
    (hfirst : tmp2 = [] → 0 < i → e.testBit (i - 1) = true) :
    ∃ r, montyLoop x e m rho i a tmp1 tmp2 = some r ∧ r.magnitude < m.magnitude ∧
      r.length ≤ m.length ∧
      Represents (radix ^ m.length) m.magnitude r.magnitude (base ^ e.magnitude) := by
  induction i generalizing a tmp1 tmp2 with
  | zero => exact ⟨a, rfl, halt, halength, ha⟩
  | succ i ih =>
    obtain ⟨a1, tmp1', hsquare, hproduct, hsome1, htmp1'⟩ :=
      montyMul_some hmneg hmpos hrho halength halength halt.le htmp1
    have ha1 := ha.mul hcoprime ha hproduct.modEq
    have hbits := shiftRight_eq_bit e.magnitude i
    rw [← testBit_eq] at hbits
    rw [montyLoop, hsquare]
    simp only [Option.bind_eq_bind, Option.bind_some]
    by_cases hbit : e.testBit i = true
    · rw [if_pos hbit]
      obtain ⟨a2, tmp2', hmul, hproduct2, hsome2, htmp2'⟩ :=
        montyMul_some hmneg hmpos hrho hproduct.length hxlength hxlt.le htmp2
      have ha2 := ha1.mul hcoprime hx hproduct2.modEq
      rw [hmul]
      apply ih hproduct2.lt hproduct2.length _ htmp1' htmp2'
      · intro hnil
        exact absurd hnil hsome2
      · rw [hbits, hbit, Bool.toNat_true, Nat.pow_succ, Nat.two_mul, Nat.pow_add]
        exact ha2
    · rw [if_neg hbit]
      have hassigned : assigned tmp2 = tmp2 := by
        rw [assigned, if_neg]
        intro hnil
        exact hbit (hfirst hnil (Nat.succ_pos i))
      rw [hassigned]
      apply ih hproduct.lt hproduct.length _ htmp2 htmp1'
      · intro hnil
        exact absurd hnil hsome1
      · rw [hbits, Bool.eq_false_of_not_eq_true hbit, Bool.toNat_false, Nat.add_zero,
          Nat.two_mul, Nat.pow_add]
        exact ha1

end Monty

/-! ### The operator `%` -/

/-- `%` returns remainders. It adds no leading zeroes. -/
structure IsRemainder (rem : BigNum → BigNum → BigNum) : Prop where
  toInt : ∀ x m, 0 ≤ x.toInt → 0 < m.toInt → (rem x m).toInt = x.toInt % m.toInt
  stripped : ∀ x m, x.Stripped → (rem x m).Stripped

theorem cast_magnitude {n : BigNum} (hn : 0 ≤ n.toInt) : (n.magnitude : Int) = n.toInt := by
  cases hneg : n.neg with
  | false => exact (toInt_of_pos hneg).symm
  | true =>
    rw [toInt_of_neg hneg] at hn ⊢
    omega

/-- The remainder as it should be, for numbers that are not negative. -/
def remainder (x m : BigNum) : BigNum :=
  (view ((Nat.digits radix (x.magnitude % m.magnitude)).map UInt32.ofNat)).stripLz

theorem value_map_ofNat {digits : List Nat} (hlt : ∀ d ∈ digits, d < radix) :
    value (digits.map UInt32.ofNat) = Nat.ofDigits radix digits := by
  induction digits with
  | nil => rfl
  | cons d digits ih =>
    have hd : (UInt32.ofNat d).toNat = d :=
      UInt32.toNat_ofNat_of_lt' (hlt d (mem_cons_self ..))
    rw [map_cons, value_cons, hd, ih (fun e he => hlt e (mem_cons_of_mem d he)),
      Nat.ofDigits_cons]

theorem isRemainder_remainder : IsRemainder remainder := by
  refine ⟨?_, fun x m _ => stripped_stripLz _⟩
  intro x m hx hm
  have hvalue := value_map_ofNat
    (fun d hd => Nat.digits_lt_base (m := x.magnitude % m.magnitude) one_lt_radix hd)
  rw [Nat.ofDigits_digits] at hvalue
  rw [remainder, toInt_stripLz, toInt_of_pos (view_neg _), view_magnitude, hvalue, Int.natCast_emod,
    cast_magnitude hx, cast_magnitude hm.le]

section Rem

variable {rem : BigNum → BigNum → BigNum} (hrem : IsRemainder rem) {m : BigNum}
  (hm : 0 < m.toInt)

include hrem hm

theorem remainder_spec {x : BigNum} (hx : 0 ≤ x.toInt) (hstripped : x.Stripped) :
    (rem x m).magnitude = x.magnitude % m.magnitude ∧ (rem x m).magnitude < m.magnitude ∧
      (rem x m).length ≤ m.length := by
  obtain ⟨-, hpos⟩ := pos_of_toInt_pos hm
  have hvalue := hrem.toInt x m hx hm
  have hnonneg : 0 ≤ (rem x m).toInt := by
    rw [hvalue]
    exact Int.emod_nonneg _ hm.ne'
  have hmagnitude : (rem x m).magnitude = x.magnitude % m.magnitude := by
    rw [← cast_magnitude hnonneg, ← cast_magnitude hx, ← cast_magnitude hm.le] at hvalue
    exact_mod_cast hvalue
  have hlt : (rem x m).magnitude < m.magnitude := by
    rw [hmagnitude]
    exact Nat.mod_lt _ hpos
  refine ⟨hmagnitude, hlt, ?_⟩
  apply (hrem.stripped x m hstripped).length_le (length_pos_iff.mpr m.nonempty)
  exact hlt.trans (magnitude_lt m)

omit hrem hm in
theorem radixPower_spec (len : Nat) :
    (radixPower len).magnitude = radix ^ len ∧ (radixPower len).Stripped ∧
      0 ≤ (radixPower len).toInt := by
  have hmagnitude : (radixPower len).magnitude = radix ^ len := by
    rw [radixPower, magnitude, value_concat]
    simp
  have hlength : (radixPower len).length = len + 1 := by
    rw [radixPower, length]
    simp
  refine ⟨hmagnitude, Or.inr ?_, Int.natCast_nonneg _⟩
  rw [hlength, hmagnitude, Nat.add_sub_cancel]

theorem montyModExp_some {x e : BigNum} (hodd : m.isOdd = true) (hx : x.length ≤ m.length) :
    ∃ r, montyModExp rem x e m = some r ∧ 0 ≤ r.toInt ∧ r.magnitude < m.magnitude ∧
      r.magnitude ≡ x.magnitude ^ e.magnitude [MOD m.magnitude] := by
  obtain ⟨hmneg, hmpos⟩ := pos_of_toInt_pos hm
  have hmlength : 0 < m.length := length_pos_iff.mpr m.nonempty
  obtain ⟨hcoprime, hrho⟩ := odd_modulus hodd
  have hnone : Reusable m.length [] := Or.inl rfl
  -- the start of the loop
  obtain ⟨hRm, hRs, hRn⟩ := radixPower_spec m.length
  obtain ⟨hRRm, hRRs, hRRn⟩ := radixPower_spec (m.length * 2)
  obtain ⟨ham, halt, halength⟩ := remainder_spec hrem hm hRn hRs
  obtain ⟨hsm, hslt, hslength⟩ := remainder_spec hrem hm hRRn hRRs
  have ha : Represents (radix ^ m.length) m.magnitude (rem (radixPower m.length) m).magnitude
      (x.magnitude ^ (e.magnitude >>> e.bitLen)) := by
    rw [shiftRight_bitLen, Nat.pow_zero, Represents, Nat.one_mul, ham, hRm]
    exact Nat.mod_modEq _ _
  obtain ⟨x', storage, henter, hproduct, -, -⟩ :=
    montyMul_some hmneg hmpos hrho hx hslength hslt.le hnone
  have hx' : Represents (radix ^ m.length) m.magnitude x'.magnitude x.magnitude := by
    apply represents_enter hcoprime
    refine hproduct.modEq.trans (Nat.ModEq.mul_left _ ?_)
    rw [hsm, hRRm, Nat.mul_two, Nat.pow_add]
    exact Nat.mod_modEq _ _
  have hbit : ([] : List UInt32) = [] → 0 < e.bitLen → e.testBit (e.bitLen - 1) = true := by
    intro _ hpos
    rw [testBit_eq]
    exact (bitLen_spec e).2 hpos
  obtain ⟨a, hloop, halt', halength', ha'⟩ := montyLoop_some hmneg hmpos hrho hcoprime hproduct.lt
    hproduct.length hx' e.bitLen halt halength ha hnone hnone hbit
  -- and back from the domain of products
  obtain ⟨r, storage', hleave, hlast, -, -⟩ := montyMul_some (y := ofUInt32 1) hmneg hmpos hrho
    halength' hmlength hmpos hnone
  refine ⟨r, ?_, ?_, hlast.lt, ?_⟩
  · rw [montyModExp]
    simp only [henter, hloop, hleave, Option.bind_eq_bind, Option.bind_some]
    rfl
  · rw [toInt_of_pos hlast.pos]
    exact Int.natCast_nonneg _
  · have hmod := hlast.modEq
    exact ha'.leave hcoprime hmod

theorem powerLoop_spec {x e : BigNum} (hx : 0 ≤ x.toInt) (i : Nat) {a : BigNum}
    (hnonneg : 0 ≤ a.toInt) (hlt : a.toInt < m.toInt)
    (ha : a.toInt ≡ x.toInt ^ (e.magnitude >>> i) [ZMOD m.toInt]) :
    0 ≤ (powerLoop rem x e m i a).toInt ∧ (powerLoop rem x e m i a).toInt < m.toInt ∧
      (powerLoop rem x e m i a).toInt ≡ x.toInt ^ e.magnitude [ZMOD m.toInt] := by
  have hstep : ∀ b c : BigNum, 0 ≤ b.toInt → 0 ≤ c.toInt →
      0 ≤ (rem (mul b c) m).toInt ∧ (rem (mul b c) m).toInt < m.toInt ∧
        (rem (mul b c) m).toInt ≡ b.toInt * c.toInt [ZMOD m.toInt] := by
    intro b c hb hc
    have hproduct : 0 ≤ (mul b c).toInt := by
      rw [toInt_mul]
      exact Int.mul_nonneg hb hc
    rw [hrem.toInt _ _ hproduct hm, toInt_mul]
    exact ⟨Int.emod_nonneg _ hm.ne', Int.emod_lt_of_pos _ hm, Int.mod_modEq _ _⟩
  induction i generalizing a with
  | zero => exact ⟨hnonneg, hlt, ha⟩
  | succ i ih =>
    obtain ⟨hn1, hl1, hm1⟩ := hstep a a hnonneg hnonneg
    have hsquare := hm1.trans (ha.mul ha)
    rw [← pow_add, ← Nat.two_mul] at hsquare
    have hbits := shiftRight_eq_bit e.magnitude i
    rw [← testBit_eq] at hbits
    rw [powerLoop]
    by_cases hbit : e.testBit i = true
    · obtain ⟨hn2, hl2, hm2⟩ := hstep (rem (mul a a) m) x hn1 hx
      rw [if_pos hbit]
      apply ih hn2 hl2
      rw [hbits, hbit, Bool.toNat_true, pow_succ]
      exact hm2.trans (hsquare.mul_right _)
    · rw [if_neg hbit]
      apply ih hn1 hl1
      rw [hbits, Bool.eq_false_of_not_eq_true hbit]
      exact hsquare

end Rem

/-- For every base, exponent and positive modulus, odd or even, `mod_exp`
returns the power of the base modulo `m`. -/
theorem modExp_correct {rem : BigNum → BigNum → BigNum} (hrem : IsRemainder rem) (x e m : BigNum)
    (hx : 0 ≤ x.toInt) (he : 0 ≤ e.toInt) (hm : 1 ≤ m.toInt) :
    ∃ r, modExp rem x e m = some r ∧ 0 ≤ r.toInt ∧ r.toInt < m.toInt ∧
      r.toInt ≡ x.toInt ^ e.toInt.toNat [ZMOD m.toInt] := by
  have hexp : e.toInt.toNat = e.magnitude := by
    rw [← cast_magnitude he]
    rfl
  have hmpos : 0 < m.toInt := hm
  generalize hx' : (if x.stripLz.length > m.length then rem x.stripLz m else x.stripLz) = x'
  have hstrip : 0 ≤ x.stripLz.toInt := by rwa [toInt_stripLz]
  obtain ⟨hnonneg, hlength, hmod⟩ : 0 ≤ x'.toInt ∧ x'.length ≤ m.length ∧
      x'.toInt ≡ x.toInt [ZMOD m.toInt] := by
    rw [← hx']
    split
    · obtain ⟨-, -, hlength⟩ := remainder_spec hrem hmpos hstrip (stripped_stripLz x)
      rw [hrem.toInt _ _ hstrip hmpos, toInt_stripLz]
      exact ⟨Int.emod_nonneg _ hmpos.ne', hlength, Int.mod_modEq _ _⟩
    · rename_i hle
      rw [toInt_stripLz]
      exact ⟨hx, Nat.le_of_not_lt hle, rfl⟩
  have hpower := hmod.pow e.magnitude
  rw [hexp, modExp]
  simp only [hx']
  split
  · rename_i hodd
    obtain ⟨r, hr, hrn, hrlt, hrmod⟩ := montyModExp_some (e := e) hrem hmpos hodd hlength
    refine ⟨r, hr, hrn, ?_, ?_⟩
    · rw [← cast_magnitude hrn, ← cast_magnitude hmpos.le]
      exact_mod_cast hrlt
    · refine Int.ModEq.trans ?_ hpower
      rw [← cast_magnitude hrn, ← cast_magnitude hnonneg, ← cast_magnitude hmpos.le]
      exact_mod_cast Int.natCast_modEq_iff.mpr hrmod
  · rename_i heven
    have htwo : 1 < m.toInt := by
      by_contra hnot
      have hone : m.magnitude = 1 := by
        have hcast := cast_magnitude hmpos.le
        omega
      apply heven
      rw [isOdd, decide_eq_true_eq]
      intro hzero
      have hnat := congrArg UInt32.toNat hzero
      rw [UInt32.toNat_and, getD_zero_toNat, show value m.digits = 1 from hone] at hnat
      exact absurd hnat (by decide)
    have hunit : (ofUInt32 1).toInt = 1 := rfl
    obtain ⟨hrn, hrlt, hrmod⟩ := powerLoop_spec (e := e) hrem hmpos hnonneg e.bitLen
      (a := ofUInt32 1) (by decide) htwo (by rw [shiftRight_bitLen, pow_zero, hunit])
    refine ⟨_, rfl, ?_, ?_, ?_⟩
    · rwa [toInt_stripLz]
    · rwa [toInt_stripLz]
    · rw [toInt_stripLz]
      exact hrmod.trans hpower

theorem modExp_seven : IsRemainder remainder ∧
    ∃ r, modExp remainder (ofUInt32 7) (ofUInt32 13) (ofUInt32 11) = some r ∧ 0 ≤ r.toInt ∧
      r.toInt < (ofUInt32 11).toInt ∧
      r.toInt ≡ (ofUInt32 7).toInt ^ (ofUInt32 13).toInt.toNat [ZMOD (ofUInt32 11).toInt] :=
  ⟨isRemainder_remainder,
    modExp_correct isRemainder_remainder _ _ _ (by decide) (by decide) (by decide)⟩

end AllJoyn.Crypto.BigNum
