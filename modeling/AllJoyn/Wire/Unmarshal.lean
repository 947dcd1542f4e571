import AllJoyn.Wire.RoundTrip

/-!
Marshalling and unmarshalling of whole argument lists: a legal list survives
the round trip under every content of the signature buffers exactly when
`MakeSignature` copies the element signatures of all its arrays.
-/

namespace AllJoyn.Wire

open Lib.Bytes Lib.Result List

/-- The arguments have a legal D-Bus signature, keep to the size limits of the
bus when they are marshalled from `base` on, and hold no handles. -/
def LegalArgs (args : List MsgArg) (base : Nat) : Prop :=
  (∃ types, HaveTypes args types ∧ LegalSignature types) ∧ AllWithinLimits args base

/-- Marshalling the arguments at `base` succeeds, and unmarshalling the bytes
with the signature made for them returns the same values and ends where the
bytes end. -/
def RoundTrips (env : MarshalEnv) (base : Nat) (args : List MsgArg) : Prop :=
  ∃ bytes sig, marshalArgs env args base = .ok bytes ∧
    makeSignature env.junk args = (.ok, sig) ∧
    ∀ (mem : Nat → UInt8) (handles : List Nat), Holds mem base bytes →
      ∀ᶠ fuel in Filter.atTop,
        unmarshalArgs ⟨mem, base + bytes.length, env.endianSwap, handles⟩ fuel (cString sig) base =
          .ok (args.map normalize, base + bytes.length)

/-- Every element signature is copied, also in the signatures of variants. -/
def SignaturesCopied (args : List MsgArg) : Prop := SigsFit args 0 ∧ AllVariantsFit args

variable {args : List MsgArg} {base : Nat}

theorem makeSignature_typed (junk : Nat → UInt8) {types : List Ty} (htypes : HaveTypes args types)
    (hlength : (sigs types).length ≤ 255) :
    ∃ sig, makeSignature junk args = (.ok, sig) ∧
      AllWritten junk (SigsFit args 0) types sig := by
  obtain ⟨sig, hcompose, hwritten⟩ := composeValues_typed junk [] htypes.ofTypes (by simpa using hlength)
  have hcount := length_le_sigs types
  have hargs := htypes.length_eq
  refine ⟨sig, ?_, hwritten⟩
  rw [makeSignature, Nat.mod_eq_of_lt (by omega), hcompose, nil_append]

theorem roundTrips_of_copied {env : MarshalEnv} (hlegal : LegalArgs args base)
    (hcopied : SignaturesCopied args) : RoundTrips env base args := by
  obtain ⟨⟨types, htypes, hsignature⟩, hlimits⟩ := hlegal
  obtain ⟨hfits, hvariants⟩ := hcopied
  obtain ⟨bytes, hbytes, -⟩ :=
    marshalArgs_ok env base (htypes.typedFits hfits) hvariants hlimits
  obtain ⟨sig, hsig, hwritten⟩ := makeSignature_typed env.junk htypes hsignature.2
  refine ⟨bytes, sig, hbytes, hsig, fun mem handles hholds => ?_⟩
  let buffer : Buffer := ⟨mem, base + bytes.length, env.endianSwap, handles⟩
  have hparse := settles_parseValues (show buffer.endianSwap = env.endianSwap from rfl) [] base
    htypes hsignature.1 (le_refl 32) (le_refl 32) hsignature.2 hbytes hholds (le_refl _)
  filter_upwards [hparse.ok hvariants] with fuel hfuel
  rw [List.append_nil, htypes.length_eq] at hfuel
  rw [unmarshalArgs, hwritten.fitting hfits, cString_of_nonzero (sigs_nonzero types),
    countCompleteTypes_sigs hsignature, hfuel, normalizeAll_eq_map]
  exact if_neg (by simp)

theorem parseValues_length {buffer : Buffer} : ∀ {fuel count pos stop : Nat}
    {sig rest : Signature} {args : List MsgArg},
    parseValues buffer fuel count sig pos = .ok (args, rest, stop) → args.length = count
  | 0, _, _, _, _, _, _, hparse => by
    rw [parseValues] at hparse
    cases hparse
  | _ + 1, 0, _, _, _, _, _, hparse => by
    rw [parseValues] at hparse
    cases hparse
    rfl
  | fuel + 1, count + 1, _, _, _, _, _, hparse => by
    rw [parseValues] at hparse
    obtain ⟨⟨arg, sig, pos⟩, -, hnext⟩ := bind_eq_ok.mp hparse
    obtain ⟨⟨args, sig, pos⟩, hargs, hresult⟩ := bind_eq_ok.mp hnext
    cases hresult
    rw [length_cons, parseValues_length hargs]

theorem countCompleteTypes_cut {before after : List Ty} {type : Ty} {front : Signature}
    (hcut : CutOf front type) (hlegal : LegalSignature (before ++ type :: after))
    (hroom : before.length ≤ (sigs before ++ front).length) :
    countCompleteTypes (sigs before ++ front) = before.length := by
  obtain ⟨hbefore, htype, -⟩ := allLegal_append.mp hlegal.1
  have hlength := hlegal.2
  rw [sigs_append, sigs, length_append, length_append] at hlength
  have hcount := length_le_sigs before
  obtain ⟨status, herror⟩ := parseCompleteType_cut hcut htype (by omega)
  have hstop : ∀ turns, countTypes turns front = 0 := by
    intro turns
    obtain ⟨char, chars, rfl⟩ := exists_cons_of_ne_nil hcut.ne_nil
    cases turns with
    | zero => rfl
    | succ turns => simp [countTypes, herror]
  have hall := countTypes_sigs before front ((sigs before ++ front).length - before.length) hbefore
    (by omega)
  rw [Nat.add_sub_cancel' hroom, hstop] at hall
  rw [countCompleteTypes, hall]
  exact Nat.mod_eq_of_lt (by omega)

/-- The marshalling environment in which the signature buffers held zeros. -/
def zeroEnv : MarshalEnv := ⟨0, false, fun _ => .error .fail⟩

theorem copied_of_roundTrips (hlegal : LegalArgs args base) (htrip : RoundTrips zeroEnv base args) :
    SignaturesCopied args := by
  obtain ⟨⟨types, htypes, hsignature⟩, -⟩ := hlegal
  obtain ⟨bytes, sig, hbytes, hsig, hunmarshal⟩ := htrip
  obtain ⟨mem, hholds⟩ := exists_holds base bytes
  let buffer : Buffer := ⟨mem, base + bytes.length, false, []⟩
  have hok := hunmarshal mem [] hholds
  obtain ⟨written, hmade, hwritten⟩ := makeSignature_typed zeroEnv.junk htypes hsignature.2
  obtain rfl : sig = written := by
    rw [hmade] at hsig
    exact (Prod.mk.inj hsig).2.symm
  have hargs := htypes.length_eq
  have hfits : SigsFit args 0 := by
    by_contra hnot
    obtain ⟨before, type, after, front, tail, rfl, rfl, hcut⟩ := hwritten.cut hsignature.1 rfl hnot
    have hchars : cString (sigs before ++ (front ++ 0 :: tail)) = sigs before ++ front := by
      rw [← append_assoc]
      refine cString_append_zero ?_ tail
      rw [forall_mem_append]
      exact ⟨sigs_nonzero before, hcut.nonzero⟩
    have hroom : before.length ≤ (sigs before ++ front).length := by
      have := length_le_sigs before
      rw [length_append]
      omega
    rw [hchars] at hok
    obtain ⟨fuel, hfuel⟩ := hok.exists
    obtain ⟨⟨parsed, rest, stop⟩, hparse, hresult⟩ := bind_eq_ok.mp hfuel
    have hcount := parseValues_length hparse
    rw [countCompleteTypes_cut hcut hsignature hroom] at hcount
    have hsame : parsed = args.map normalize := by
      simp only at hresult
      split at hresult
      · cases hresult
      · exact (Prod.mk.inj (Except.ok.inj hresult)).1
    rw [hsame, length_map, hargs, length_append, length_cons] at hcount
    omega
  refine ⟨hfits, ?_⟩
  by_contra hnot
  have hparse := settles_parseValues (show buffer.endianSwap = zeroEnv.endianSwap from rfl) []
    base htypes hsignature.1 (le_refl 32) (le_refl 32) hsignature.2 hbytes hholds (le_refl _)
  obtain ⟨status, hfails⟩ := hparse.error rfl hnot
  obtain ⟨fuel, hfuel, herror⟩ := (hok.and hfails).exists
  rw [List.append_nil, hargs] at herror
  rw [unmarshalArgs, hwritten.fitting hfits, cString_of_nonzero (sigs_nonzero types),
    countCompleteTypes_sigs hsignature] at hfuel
  change (parseValues buffer fuel types.length (sigs types) base >>= _) = _ at hfuel
  rw [herror] at hfuel
  cases hfuel

/-- A legal argument list survives marshalling and unmarshalling, whatever the
signature buffers held, in both byte orders and at every offset, exactly when
every element signature ends below position 254 of the buffer in which its
signature is composed. -/
theorem roundTrips_iff_signaturesCopied {args : List MsgArg} {base : Nat}
    (hlegal : LegalArgs args base) :
    (∀ env, RoundTrips env base args) ↔ SignaturesCopied args :=
  ⟨fun htrips => copied_of_roundTrips hlegal (htrips zeroEnv),
    fun hcopied _ => roundTrips_of_copied hlegal hcopied⟩

/-- A property map with one entry, an unsigned number in a variant. -/
def propertyMap : MsgArg :=
  .array (some (Ty.dictEntry .string .variant).sig)
    [.dictEntry (.string (some [65])) (.variant (.scalar .uint32 (7 : Fin (256 ^ 4))))]

theorem propertyMap_legal : LegalArgs [propertyMap, .string none] 0 := by
  refine ⟨⟨[.array (.dictEntry .string .variant), .string], ?_, ?_⟩, ?_⟩
  · refine ⟨_, _, rfl, ⟨_, rfl, rfl, ⟨_, _, rfl, ⟨rfl, by decide⟩, rfl, .scalar .uint32, rfl, ?_⟩,
      trivial⟩, _, _, rfl, ⟨rfl, by decide⟩, rfl⟩
    exact ⟨⟨trivial, trivial⟩, by decide⟩
  · exact ⟨⟨⟨by decide, rfl, by decide, rfl, trivial⟩, trivial, trivial⟩, by decide⟩
  · exact ⟨⟨by decide, ⟨trivial, trivial⟩, trivial⟩, trivial, trivial⟩

theorem roundTrips_propertyMap :
    LegalArgs [propertyMap, .string none] 0 ∧
      ∀ env, RoundTrips env 0 [propertyMap, .string none] :=
  ⟨propertyMap_legal, (roundTrips_iff_signaturesCopied propertyMap_legal).mpr
    ⟨⟨by simp [SigFits, propertyMap, Ty.sig], trivial, trivial⟩,
      ⟨⟨trivial, trivial, trivial⟩, trivial⟩, trivial, trivial⟩⟩

/-- A struct of 251 bytes, whose signature has 253 characters. -/
def wideStruct : Ty := .struct (List.replicate 251 (.scalar .byte))

/-- An array of such structs without elements. -/
def wideArray : MsgArg := .array (some wideStruct.sig) []

theorem sigs_bytes_length (count : Nat) :
    (sigs (List.replicate count (.scalar .byte))).length = count := by
  induction count with
  | zero => rfl
  | succ count ih => simp [replicate_succ, sigs, Ty.sig, ih]

theorem allLegal_bytes (arrays structs count : Nat) :
    AllLegal arrays structs (List.replicate count (.scalar .byte)) := by
  induction count with
  | zero => trivial
  | succ count ih => exact ⟨trivial, ih⟩

theorem wideStruct_sig_length : wideStruct.sig.length = 253 := by
  rw [wideStruct, Ty.sig, length_cons, length_append, sigs_bytes_length]
  rfl

theorem wideArray_legal : LegalArgs [wideArray] 0 := by
  refine ⟨⟨[.array wideStruct], ?_, ?_, ?_⟩, ?_⟩
  · exact ⟨_, _, rfl, ⟨_, rfl, rfl, trivial⟩, rfl⟩
  · exact ⟨⟨by decide, by decide, cons_ne_nil _ _, allLegal_bytes _ _ _⟩, trivial⟩
  · simp [sigs, Ty.sig, wideStruct_sig_length]
  · exact ⟨⟨Nat.le_add_right _ _, trivial⟩, trivial⟩

/-- The signature of the array of wide structs is 254 characters long and
legal, but its element signature is not copied: with a buffer of zeros the
message cannot be read back. -/
theorem wideArray_not_roundTrips : LegalArgs [wideArray] 0 ∧ ¬RoundTrips zeroEnv 0 [wideArray] := by
  refine ⟨wideArray_legal, fun htrip => ?_⟩
  have hfits := (copied_of_roundTrips wideArray_legal htrip).1.1
  simp [SigFits, wideArray, wideStruct_sig_length] at hfits

end AllJoyn.Wire
