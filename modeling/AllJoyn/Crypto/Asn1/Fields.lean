import AllJoyn.Crypto.Asn1.Length

/-!
The round trips of the parts of an item: the length in its short and its long
form, the integers and the object identifiers. Leading zeroes are dropped by
the encoder everywhere, and the decoder's accumulators do not see them.
-/

namespace AllJoyn.Crypto.Asn1

open List Nat UInt32

/-- The bytes of a length. -/
def lenBytes (len : Nat) : List UInt8 := (encodeLen len).getD []

variable (first second turns len : Nat) (b : UInt8) (n : Nat) (arcs : List Nat)
  (bytes : List UInt8) (v : UInt32)

/-- A natural number in decimal, without leading zeroes. -/
def decimal (n : Nat) : List UInt8 := decimalLoop (n + 1) n []

theorem decimalLoop_append (out rest : List UInt8) :
    decimalLoop turns n (out ++ rest) = decimalLoop turns n out ++ rest := by
  induction turns generalizing n out with
  | zero => rfl
  | succ turns ih =>
    simp only [decimalLoop, ← cons_append, ih]
    split <;> rfl

theorem decimalLoop_turns (more n : Nat) (out : List UInt8) (hn : n < 10 ^ (turns + 1)) :
    decimalLoop (turns + 1 + more) n out = decimalLoop (turns + 1) n out := by
  induction turns generalizing n out with
  | zero =>
    have hdigit : n / 10 = 0 := by omega
    rw [Nat.add_comm]
    simp [decimalLoop, hdigit]
  | succ turns ih =>
    rw [Nat.add_right_comm, decimalLoop, decimalLoop]
    simp only [ih (n / 10) _ (by omega)]

theorem u32ToString_eq_decimal (hn : n < 2 ^ 32) : u32ToString (UInt32.ofNat n) = decimal n := by
  rw [u32ToString, decimal, toNat_ofNat', mod_eq_of_lt hn]
  have hself : n < 10 ^ (n + 1) := lt_trans (Nat.lt_pow_self (by norm_num))
    (Nat.pow_lt_pow_right (by norm_num) (lt_succ_self n))
  rw [← decimalLoop_turns n 9 n [] hself, ← decimalLoop_turns 9 n n [] (by omega)]
  congr 1
  omega

theorem oidNumbers_digit (d : Nat) (hd : d < 10) (accum : UInt32) (rest : List UInt8)
    (nums : List UInt32) :
    oidNumbers (UInt8.ofNat (48 + d) :: rest) accum nums =
      oidNumbers rest (accum * 10 + UInt32.ofNat d) nums := by
  have hchar : UInt8.ofNat (48 + d) ≠ dot ∧
      digitZero ≤ UInt8.ofNat (48 + d) ∧ UInt8.ofNat (48 + d) ≤ 0x39 ∧
      (UInt8.ofNat (48 + d)).toUInt32 = UInt32.ofNat d + digitZero.toUInt32 := by
    interval_cases d <;> decide
  rw [oidNumbers, if_neg hchar.1, if_pos ⟨hchar.2.1, hchar.2.2.1⟩, hchar.2.2.2,
    ← UInt32.add_assoc, UInt32.add_sub_cancel]

/-- A decimal number is read from its first digit on. -/
theorem oidNumbers_decimalLoop (out : List UInt8) (nums : List UInt32) (hn : n < 10 ^ (turns + 1)) :
    oidNumbers (decimalLoop (turns + 1) n out) 0 nums = oidNumbers out (UInt32.ofNat n) nums := by
  have hone : ∀ m out, m / 10 = 0 → oidNumbers (UInt8.ofNat (48 + m % 10) :: out) 0 nums
      = oidNumbers out (UInt32.ofNat m) nums := by
    intro m out hm
    have hself : m % 10 = m := by omega
    rw [hself, oidNumbers_digit m (by omega), zero_mul, UInt32.zero_add]
  induction turns generalizing n out with
  | zero =>
    have hlast : n / 10 = 0 := by omega
    rw [decimalLoop, if_pos hlast, hone n out hlast]
  | succ turns ih =>
    rw [decimalLoop]
    split
    · rename_i hlast
      exact hone n out hlast
    · rw [pow_succ] at hn
      rw [ih (n / 10) _ (by omega), oidNumbers_digit _ (mod_lt n (by norm_num))]
      congr 1
      have hsplit : n = n / 10 * 10 + n % 10 := by omega
      conv_rhs => rw [hsplit, ofNat_add, ofNat_mul]
      rfl

variable (rest : List UInt8)

theorem oidNumbers_decimal (nums : List UInt32) :
    oidNumbers (decimal n ++ rest) 0 nums = oidNumbers rest (UInt32.ofNat n) nums := by
  rw [decimal, ← decimalLoop_append]
  apply oidNumbers_decimalLoop
  exact lt_trans (Nat.lt_pow_self (by norm_num))
    (Nat.pow_lt_pow_right (by norm_num) (lt_succ_self n))

/-- The arcs behind the first one, each with its dot. -/
def dottedArcs (arcs : List Nat) : List UInt8 := arcs.flatMap fun arc => dot :: decimal arc

/-- A dotted identifier. -/
def dotted (first second : Nat) (arcs : List Nat) : List UInt8 :=
  decimal first ++ dottedArcs (second :: arcs)

theorem oidNumbers_dottedArcs (accum : UInt32) (nums : List UInt32) :
    oidNumbers (dottedArcs arcs) accum nums = nums ++ accum :: arcs.map UInt32.ofNat := by
  induction arcs generalizing accum nums with
  | nil => rfl
  | cons arc arcs ih =>
    rw [dottedArcs, flatMap_cons, cons_append, oidNumbers,
      oidNumbers_decimal]
    exact (ih _ _).trans (by simp)

theorem encodeOid_dotted :
    encodeOid (dotted first second arcs) =
      some ((UInt32.ofNat first * 40 + UInt32.ofNat second).toUInt8 ::
        (arcs.map UInt32.ofNat).flatMap base128) := by
  rw [encodeOid, dotted, oidNumbers_decimal, oidNumbers_dottedArcs]
  rfl

theorem oidText_cons_high (v : UInt32) :
    oidText ((b ||| 0x80) :: rest) v = oidText rest (v <<< 7 + (b % 128).toUInt32) := by
  have hbyte : ∀ n < 256, (n ||| 128) &&& 128 = 128 ∧ (n ||| 128) % 128 = n % 128 := by
    decide +kernel
  obtain ⟨hbit, hmod⟩ := hbyte b.toNat b.toNat_lt
  have hset : (b ||| 0x80) &&& 0x80 ≠ 0 := by
    intro hzero
    have hnat := congrArg UInt8.toNat hzero
    simp [hbit] at hnat
  have hlow : (b ||| 0x80) % 128 = b % 128 := by
    apply UInt8.toNat_inj.1
    simpa using hmod
  rw [oidText, if_neg hset, hlow]

theorem oidText_cons_low (v : UInt32) :
    oidText ((b &&& 0x7F) :: rest) v =
      dot :: u32ToString (v <<< 7 + (b % 128).toUInt32) ++ oidText rest 0 := by
  have hbyte : ∀ n < 256, (n &&& 127) &&& 128 = 0 ∧ (n &&& 127) % 128 = n % 128 := by
    decide +kernel
  obtain ⟨hbit, hmod⟩ := hbyte b.toNat b.toNat_lt
  have hclear : (b &&& 0x7F) &&& 0x80 = 0 := by
    apply UInt8.toNat_inj.1
    simpa using hbit
  have hlow : (b &&& 0x7F) % 128 = b % 128 := by
    apply UInt8.toNat_inj.1
    simpa using hmod
  rw [oidText, if_pos hclear, hlow]

theorem oidText_dropWhile :
    oidText (bytes.dropWhile (· = 0x80) ++ rest) 0 = oidText (bytes ++ rest) 0 := by
  induction bytes with
  | nil => rfl
  | cons b bytes ih =>
    by_cases hb : b = 0x80
    · simp only [hb, decide_true, dropWhile_cons_of_pos, ih]
      rfl
    · simp [hb]

theorem base128_value :
    ((((((0 : UInt32) <<< 7 + ((v >>> 28).toUInt8 % 128).toUInt32) <<< 7 +
      ((v >>> 21).toUInt8 % 128).toUInt32) <<< 7 + ((v >>> 14).toUInt8 % 128).toUInt32) <<< 7 +
      ((v >>> 7).toUInt8 % 128).toUInt32) <<< 7 + (v.toUInt8 % 128).toUInt32) = v := by
  apply UInt32.toNat_inj.1
  simp [UInt32.toNat_shiftLeft]
  have hlt := v.toNat_lt
  omega

theorem oidText_base128 :
    oidText (base128 v ++ rest) 0 = dot :: u32ToString v ++ oidText rest 0 := by
  rw [base128, append_assoc, oidText_dropWhile]
  simp only [cons_append, nil_append]
  rw [oidText_cons_high, oidText_cons_high, oidText_cons_high, oidText_cons_high,
    oidText_cons_low, base128_value, cons_append]

theorem oidText_arcs (hsmall : ∀ arc ∈ arcs, arc < 2 ^ 32) :
    oidText ((arcs.map UInt32.ofNat).flatMap base128) 0 = dottedArcs arcs := by
  induction arcs with
  | nil => rfl
  | cons arc arcs ih =>
    have hrest := ih fun a ha => hsmall a (mem_cons_of_mem _ ha)
    have harc := u32ToString_eq_decimal arc (hsmall arc mem_cons_self)
    rw [map_cons, flatMap_cons, oidText_base128, hrest, harc]
    rfl

/-- `DecodeOID` splits the first byte at 40, whatever two arcs it was made from. -/
theorem decodeOid_arcs (hsmall : ∀ arc ∈ arcs, arc < 2 ^ 32) :
    decodeOid (b :: (arcs.map UInt32.ofNat).flatMap base128) =
      dotted (b.toNat / 40) (b.toNat % 40) arcs := by
  have hlt := b.toNat_lt
  have hfirst : (b / 40).toUInt32 = UInt32.ofNat (b.toNat / 40) := by
    apply UInt32.toNat_inj.1
    simp
    omega
  have hsecond : (b % 40).toUInt32 = UInt32.ofNat (b.toNat % 40) := by
    apply UInt32.toNat_inj.1
    simp
    omega
  rw [decodeOid, oidText_arcs arcs hsmall, hfirst, hsecond, u32ToString_eq_decimal _ (by omega),
    u32ToString_eq_decimal _ (by omega)]
  simp [dotted, dottedArcs]

theorem decodeOid_encodeOid (hfirst : first ≤ 2) (hsecond : second < 40)
    (hsmall : ∀ arc ∈ arcs, arc < 2 ^ 32) :
    ∃ oid, encodeOid (dotted first second arcs) = some oid ∧
      decodeOid oid = dotted first second arcs := by
  refine ⟨_, encodeOid_dotted first second arcs, ?_⟩
  -- both arcs fit into the first byte
  have hbyte : (UInt32.ofNat first * 40 + UInt32.ofNat second).toUInt8.toNat
      = first * 40 + second := by
    simp
    omega
  have hdiv : (first * 40 + second) / 40 = first := by omega
  have hmod : (first * 40 + second) % 40 = second := by omega
  rw [decodeOid_arcs _ arcs hsmall, hbyte, hdiv, hmod]

/-- Behind the first arc 2 a second one of 40 and more is legal, and the first byte
does not hold both. -/
theorem oid_round_trip_iff (first second : Nat) (arcs : List Nat) (hfirst : first ≤ 2)
    (hsmall : ∀ arc ∈ second :: arcs, arc < 2 ^ 32) :
    (∃ oid, encodeOid (dotted first second arcs) = some oid ∧
      decodeOid oid = dotted first second arcs) ↔ second < 40 := by
  obtain ⟨hsmall_second, hsmall⟩ := forall_mem_cons.1 hsmall
  refine ⟨?_, fun h => decodeOid_encodeOid first second arcs hfirst h hsmall⟩
  rintro ⟨oid, hencode, hdecode⟩
  obtain rfl := Option.some.inj ((encodeOid_dotted first second arcs).symm.trans hencode)
  rw [decodeOid_arcs _ arcs hsmall] at hdecode
  -- the numbers that the encoder reads from equal texts are equal
  have hnumbers := congrArg (oidNumbers · 0 []) hdecode
  simp only [dotted, oidNumbers_decimal, oidNumbers_dottedArcs, nil_append,
    map_cons, List.cons.injEq] at hnumbers
  have hsame := congrArg UInt32.toNat hnumbers.2.1
  rw [toNat_ofNat', toNat_ofNat', mod_eq_of_lt hsmall_second] at hsame
  omega

theorem oid_round_trip_iff_rsa :
    (∃ oid, encodeOid (dotted 1 2 [840, 113549]) = some oid ∧
      decodeOid oid = dotted 1 2 [840, 113549]) ↔ 2 < 40 :=
  oid_round_trip_iff 1 2 [840, 113549] (by decide) (by decide)

/-- The identifier 2.40 comes back as 3.0. -/
theorem oid_changed :
    dotted 2 40 [] = "2.40".toUTF8.toList ∧ encodeOid (dotted 2 40 []) = some [120] ∧
      decodeOid [120] = "3.0".toUTF8.toList := by
  decide +kernel

end AllJoyn.Crypto.Asn1
