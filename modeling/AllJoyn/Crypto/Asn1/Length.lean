import Mathlib.Tactic
import AllJoyn.Crypto.Asn1.Basic

/-!
`DecodeLen` against the definite lengths of the Basic Encoding Rules. Its test
for an overflow compares the shifted length with the length before the shift,
which misses an overflow that leaves a larger number. The length never gets
smaller behind such a step, so the comparison with the remaining bytes refuses
it unless there are 2^56 of them.
-/

namespace AllJoyn.Crypto.Asn1

open Option

/-- The number that bytes make up behind a number `v`, most significant first. -/
def bytesValue (v : Nat) (bytes : List UInt8) : Nat :=
  bytes.foldl (fun v byte => v * 256 + byte.toNat) v

/-- The octets of a definite length and what follows them. The first byte 0x80
starts the indefinite form. -/
def lengthOctets : List UInt8 → Option (List UInt8 × List UInt8)
  | [] => none
  | first :: p =>
    if first &&& 0x80 = 0 then some ([first], p)
    else if first = 0x80 ∨ p.length < (first &&& 0x7F).toNat then none
    else some (p.splitAt (first &&& 0x7F).toNat)

/-- The definite length at the start of a sequence that holds that many bytes
behind it, with what follows it. -/
def definiteLength (p : List UInt8) : Option (Nat × List UInt8) := do
  let (octets, rest) ← lengthOctets p
  let len := bytesValue 0 octets
  if len < 2 ^ 64 ∧ len ≤ rest.length then some (len, rest) else none

/-- The test of `DecodeLen` before another octet, where those so far make up `v`. -/
def OverflowFound (v : Nat) : Prop := v * 256 % 2 ^ 64 < v % 2 ^ 64

instance OverflowFound.decidable (v : Nat) : Decidable (OverflowFound v) :=
  inferInstanceAs (Decidable (_ < _))

/-- No test finds an overflow while the octets behind `v` are read. -/
def Unfound (v : Nat) (octets : List UInt8) : Prop :=
  ∀ k < octets.length, ¬ OverflowFound (bytesValue v (octets.take k))

theorem unfound_cons (v : Nat) (byte : UInt8) (octets : List UInt8) :
    Unfound v (byte :: octets) ↔ ¬ OverflowFound v ∧ Unfound (v * 256 + byte.toNat) octets :=
  Nat.forall_lt_succ_left

/-- The loop passes every test or gives up, and keeps the low 64 bits. -/
theorem decodeLongLen_eq_some (n : Nat) (l : UInt64) (v : Nat) (p rest : List UInt8) (len : UInt64)
    (hl : l.toNat = v % 2 ^ 64) :
    decodeLongLen n l p = some (len, rest) ↔
      n ≤ p.length ∧ Unfound v (p.take n) ∧ bytesValue v (p.take n) % 2 ^ 64 = len.toNat ∧
        p.drop n = rest := by
  induction n generalizing l v p with
  | zero => simp [-Nat.reducePow, decodeLongLen, Unfound, bytesValue, ← hl, UInt64.toNat_inj]
  | succ n ih =>
    cases p with
    | nil => simp [decodeLongLen]
    | cons byte p =>
      have hshift : (l <<< 8).toNat = v * 256 % 2 ^ 64 := by
        simp [UInt64.toNat_shiftLeft]
        omega
      have hnext : (l <<< 8 + byte.toUInt64).toNat = (v * 256 + byte.toNat) % 2 ^ 64 := by
        rw [UInt64.toNat_add, UInt8.toNat_toUInt64]
        omega
      have htest : l <<< 8 < l ↔ OverflowFound v := by
        rw [UInt64.lt_iff_toNat_lt, hshift, hl, OverflowFound]
      rw [decodeLongLen, List.take_succ_cons, unfound_cons, ← htest]
      by_cases hfound : l <<< 8 < l
      · simp [hfound]
      · rw [if_neg hfound, ih _ _ _ hnext]
        simp [hfound, bytesValue]

theorem le_bytesValue (v : Nat) (bytes : List UInt8) : v ≤ bytesValue v bytes := by
  induction bytes generalizing v with
  | nil => exact le_refl v
  | cons byte bytes ih =>
    calc v ≤ v * 256 + byte.toNat := by omega
      _ ≤ _ := ih _

theorem unfound_of_lt (v : Nat) (octets : List UInt8) (hlt : bytesValue v octets < 2 ^ 64) :
    Unfound v octets := by
  induction octets generalizing v with
  | nil => simp [Unfound]
  | cons byte octets ih =>
    have hle := (le_bytesValue (v * 256 + byte.toNat) octets).trans_lt hlt
    refine (unfound_cons v byte octets).2 ⟨?_, ih _ hlt⟩
    rw [OverflowFound]
    omega

/-- A length that runs over and passes the tests ends above 2^56. -/
theorem le_of_unfound (v : Nat) (octets : List UInt8) (hv : v < 2 ^ 64 ∨ 2 ^ 56 ≤ v % 2 ^ 64)
    (hge : 2 ^ 64 ≤ bytesValue v octets) (hunfound : Unfound v octets) :
    2 ^ 56 ≤ bytesValue v octets % 2 ^ 64 := by
  induction octets generalizing v with
  | nil => exact hv.resolve_left (not_lt.2 hge)
  | cons byte octets ih =>
    obtain ⟨hfound, hunfound⟩ := (unfound_cons v byte octets).1 hunfound
    rw [OverflowFound] at hfound
    have hbyte := byte.toNat_lt
    exact ih (v * 256 + byte.toNat) (by omega) hge hunfound

theorem head?_ne_of_octets {p : List UInt8} {field : List UInt8 × List UInt8}
    (hoctets : lengthOctets p = some field) : p.head? ≠ some 0x80 := by
  intro hfirst
  obtain ⟨q, rfl⟩ := List.head?_eq_some_iff.1 hfirst
  simp [lengthOctets] at hoctets

theorem decodeLen_eq_some_iff (p : List UInt8) (hfirst : p.head? ≠ some 0x80)
    (r : Nat × List UInt8) :
    decodeLen p = some r ↔ ∃ field, lengthOctets p = some field ∧ Unfound 0 field.1 ∧
      bytesValue 0 field.1 % 2 ^ 64 ≤ field.2.length ∧
        (bytesValue 0 field.1 % 2 ^ 64, field.2) = r := by
  cases p with
  | nil => simp [decodeLen, lengthOctets]
  | cons first p =>
    by_cases hbit : first &&& 0x80 = 0
    · have hlt := first.toNat_lt
      have hmod : first.toNat % 2 ^ 64 = first.toNat := by omega
      simp [decodeLen, lengthOctets, hbit, hmod, Unfound, OverflowFound, bytesValue]
    · have hfirst : first ≠ 0x80 := by simpa using hfirst
      simp only [decodeLen, lengthOctets, ne_eq, hbit, not_false_eq_true, if_true, if_false, hfirst,
        false_or, bind_eq_bind, bind_eq_some_iff, Prod.exists, List.splitAt_eq,
        decodeLongLen_eq_some _ 0 0 _ _ _ rfl, ite_none_left_eq_some, not_lt,
        ite_none_right_eq_some, Option.some.injEq, Prod.mk.injEq]
      constructor
      · rintro ⟨len, rest, ⟨hlen, hunfound, hvalue, rfl⟩, hle, rfl⟩
        rw [← hvalue] at hle ⊢
        exact ⟨_, _, ⟨hlen, rfl, rfl⟩, hunfound, hle, rfl⟩
      · rintro ⟨octets, rest, ⟨hlen, rfl, rfl⟩, hunfound, hle, rfl⟩
        refine ⟨UInt64.ofNat _, _, ⟨hlen, hunfound, (UInt64.toNat_ofNat' ..).symm, rfl⟩, ?_⟩
        exact ⟨hle, rfl⟩

/-- The sequences about which `DecodeLen` is right: none that starts with the
indefinite form, and one whose length needs more than 64 bits only where a test
finds this, or where fewer bytes follow than the low 64 bits of the length say. -/
def LengthSafe (p : List UInt8) : Prop :=
  p.head? ≠ some 0x80 ∧ ∀ field, lengthOctets p = some field →
    2 ^ 64 ≤ bytesValue 0 field.1 →
      ¬ Unfound 0 field.1 ∨ field.2.length < bytesValue 0 field.1 % 2 ^ 64

theorem decodeLen_eq_iff (p : List UInt8) :
    decodeLen p = definiteLength p ↔ LengthSafe p := by
  by_cases hfirst : p.head? = some 0x80
  · obtain ⟨q, rfl⟩ := List.head?_eq_some_iff.1 hfirst
    have hread : decodeLen (0x80 :: q) = some (0, q) := by simp [decodeLen, decodeLongLen]
    have hnone : definiteLength (0x80 :: q) = none := by simp [definiteLength, lengthOctets]
    simp [hread, hnone, LengthSafe]
  · have hread := decodeLen_eq_some_iff p hfirst
    cases hoctets : lengthOctets p with
    | none =>
      have hnone : decodeLen p = none := by
        simp [eq_none_iff_forall_ne_some, hread, hoctets]
      simp [hnone, definiteLength, hoctets, LengthSafe, hfirst]
    | some field =>
      simp only [hoctets, Option.some.injEq, exists_eq_left'] at hread
      simp only [LengthSafe, ne_eq, hfirst, not_false_eq_true, hoctets, Option.some.injEq,
        true_and, forall_eq']
      by_cases hfits : bytesValue 0 field.1 < 2 ^ 64
      · refine iff_of_true ?_ fun hge => absurd hge (not_le.2 hfits)
        ext r
        rw [hread, Nat.mod_eq_of_lt hfits]
        simp [-Nat.reducePow, definiteLength, hoctets, hfits, unfound_of_lt 0 field.1 hfits]
      · have hnone : definiteLength p = none := by
          simp [-Nat.reducePow, definiteLength, hoctets, hfits]
        have hsome : decodeLen p ≠ none ↔
            Unfound 0 field.1 ∧ bytesValue 0 field.1 % 2 ^ 64 ≤ field.2.length := by
          simp [ne_none_iff_exists', hread]
        rw [hnone, imp_iff_right (not_lt.1 hfits), ← not_le, ← not_and_or, ← hsome, not_not]

/-- `DecodeLen` is right exactly about those sequences, which are all that start with
a definite length and have fewer than 2^56 bytes behind it. -/
theorem decodeLen_eq_definiteLength_iff (p : List UInt8) :
    (decodeLen p = definiteLength p ↔ LengthSafe p) ∧
      ∀ octets rest, lengthOctets p = some (octets, rest) → rest.length < 2 ^ 56 →
        decodeLen p = definiteLength p := by
  refine ⟨decodeLen_eq_iff p, fun octets rest hoctets hlen => (decodeLen_eq_iff p).2
    ⟨head?_ne_of_octets hoctets, fun field hfield hge => ?_⟩⟩
  obtain rfl := Option.some.inj (hoctets.symm.trans hfield)
  refine or_iff_not_imp_left.2 fun hunfound => ?_
  exact hlen.trans_le (le_of_unfound 0 octets (Or.inl (by norm_num)) hge (not_not.1 hunfound))

/-- The first byte of the indefinite form is read as the length 0. And nine octets
that make up 0x010203040506070809 are read as 0x0203040506070809, where that
many bytes follow. -/
theorem decodeLen_wrong :
    decodeLen [0x80, 0, 0] = some (0, [0, 0]) ∧ definiteLength [0x80, 0, 0] = none ∧
      ∃ rest, decodeLen ([0x89, 1, 2, 3, 4, 5, 6, 7, 8, 9] ++ rest) =
          some (0x0203040506070809, rest) ∧
        definiteLength ([0x89, 1, 2, 3, 4, 5, 6, 7, 8, 9] ++ rest) = none := by
  obtain ⟨rest, hrest⟩ : ∃ rest : List UInt8, rest.length = 0x0203040506070809 :=
    ⟨_, List.length_replicate (a := 0)⟩
  have hoctets : lengthOctets ([0x89, 1, 2, 3, 4, 5, 6, 7, 8, 9] ++ rest) =
      some ([1, 2, 3, 4, 5, 6, 7, 8, 9], rest) := by
    have hbit : (0x89 : UInt8) &&& 0x80 ≠ 0 := by decide
    simp [lengthOctets, hbit]
  have hlarge : ¬ bytesValue 0 [1, 2, 3, 4, 5, 6, 7, 8, 9] < 2 ^ 64 := by decide
  refine ⟨by decide, by decide, rest, ?_, ?_⟩
  · have hmod : bytesValue 0 [1, 2, 3, 4, 5, 6, 7, 8, 9] % 2 ^ 64 = 0x0203040506070809 := by decide
    have hunfound : Unfound 0 [1, 2, 3, 4, 5, 6, 7, 8, 9] := by
      rw [Unfound]
      decide
    refine (decodeLen_eq_some_iff _ (by simp) _).2 ⟨_, hoctets, hunfound, ?_⟩
    rw [hmod, hrest]
    exact ⟨le_refl _, rfl⟩
  · simp only [definiteLength, hoctets, bind_eq_bind, bind_some, hlarge, false_and,
      if_false]

end AllJoyn.Crypto.Asn1
