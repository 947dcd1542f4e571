import AllJoyn.Wire.Sizes
import AllJoyn.Wire.Parse

/-!
Pieces of the round trip: the form in which a value comes back from the parser
(`normalize`), what a successful marshalling call has written, and parsing of
the values that have no members.
-/

namespace AllJoyn.Wire

open Lib.Bytes Lib.Result List

variable {pos : Nat} {body : List UInt8} {type : ScalarType} {env : MarshalEnv}
  {values : List (Fin type.range)}

/-- The values of an array whose elements are scalars of one type. -/
def scalarValues (type : ScalarType) : List MsgArg → List (Fin type.range)
  | [] => []
  | .scalar valueType value :: args =>
    if htype : valueType = type then (htype ▸ value) :: scalarValues type args
    else scalarValues type args
  | _ :: args => scalarValues type args

mutual
/-- The form in which a value comes out of the parser. -/
def normalize : MsgArg → MsgArg
  | .string str => .string (some (str.getD []))
  | .objectPath str => .objectPath (some (str.getD []))
  | .signature sig => .signature (some (sig.getD []))
  | .variant val => .variant (normalize val)
  | .struct members => .struct (normalizeAll members)
  | .dictEntry key val => .dictEntry (normalize key) (normalize val)
  | .array elemSig elements =>
    match TypeId.ofChar ((elemSig.getD []).headD 0) with
    | .scalar type => .scalarArray type (scalarValues type elements)
    | _ => .array elemSig (normalizeAll elements)
  | .invalid => .invalid
  | .scalar type value => .scalar type value
  | .handle fd => .handle fd
  | .scalarArray type values => .scalarArray type values

def normalizeAll : List MsgArg → List MsgArg
  | [] => []
  | arg :: args => normalize arg :: normalizeAll args
end

theorem normalizeAll_eq_map (args : List MsgArg) : normalizeAll args = args.map normalize := by
  induction args with
  | nil => rfl
  | cons arg args ih => rw [normalizeAll, ih, map_cons]

/-! ### What a successful call has written -/

variable {bytes : List UInt8} {arg : MsgArg}

theorem padded_inv {alignment : Nat} {body : Nat → Except QStatus (List UInt8)}
    (hpadded : padded alignment body pos = .ok bytes) :
    ∃ inner, body (align pos alignment) = .ok inner ∧ bytes = padding pos alignment ++ inner := by
  obtain ⟨inner, hinner, hbytes⟩ := bind_eq_ok.mp hpadded
  exact ⟨inner, hinner, (pure_eq_ok.mp hbytes).symm⟩

theorem marshalArgs_cons_inv {args : List MsgArg}
    (hmarshal : marshalArgs env (arg :: args) pos = .ok bytes) :
    ∃ inner rest, marshalBody env arg (align pos arg.alignment) = .ok inner ∧
      marshalArgs env args (align pos arg.alignment + inner.length) = .ok rest ∧
      bytes = padding pos arg.alignment ++ (inner ++ rest) := by
  obtain ⟨first, hfirst, hnext⟩ := bind_eq_ok.mp hmarshal
  obtain ⟨rest, hrest, hbytes⟩ := bind_eq_ok.mp hnext
  obtain ⟨inner, hinner, rfl⟩ := padded_inv hfirst
  rw [length_append, padding_length, padding_append_end] at hrest
  rw [pure_eq_ok, append_assoc] at hbytes
  exact ⟨inner, rest, hinner, hrest, hbytes.symm⟩

theorem checkedArraySize_inv {size len : Nat} (hsize : checkedArraySize size = .ok len) :
    size ≤ maxArrayLen ∧ len = size := by
  unfold checkedArraySize at hsize
  split at hsize
  · cases hsize
  · exact ⟨by omega, by simpa using hsize.symm⟩

theorem marshalBody_array_inv {elemSig : Signature} {elements : List MsgArg}
    (hmarshal : marshalBody env (.array (some elemSig) elements) pos = .ok body) :
    ∃ bytes, marshalArgs env elements (elemStart (elemAlignment elemSig) (pos + 4)) = .ok bytes ∧
      bytes.length ≤ maxArrayLen ∧
      body = env.word 4 bytes.length ++ (elemPadding (elemAlignment elemSig) (pos + 4) ++ bytes) := by
  rw [marshalBody] at hmarshal
  split at hmarshal
  · obtain ⟨bytes, hbytes, hnext⟩ := bind_eq_ok.mp hmarshal
    obtain ⟨len, hlen, hbody⟩ := bind_eq_ok.mp hnext
    obtain ⟨hsize, rfl⟩ := checkedArraySize_inv hlen
    exact ⟨bytes, hbytes, hsize, (pure_eq_ok.mp hbody).symm⟩
  · cases hmarshal

theorem marshalBody_scalarArray_inv
    (hmarshal : marshalBody env (.scalarArray type values) pos = .ok body) :
    type.size * values.length ≤ maxArrayLen ∧
      body = env.word 4 (type.size * values.length) ++
        (elemPadding type.size (pos + 4) ++ env.scalarBytes values) := by
  obtain ⟨len, hlen, hbody⟩ := bind_eq_ok.mp hmarshal
  obtain ⟨hsize, rfl⟩ := checkedArraySize_inv hlen
  exact ⟨hsize, (pure_eq_ok.mp hbody).symm⟩

theorem marshalBody_variant_inv {val : MsgArg} {sig : Signature}
    (hsig : makeSignature env.junk [val] = (.ok, sig))
    (hmarshal : marshalBody env (.variant val) pos = .ok body) :
    ∃ inner, marshalBody env val (align (pos + 1 + sig.length + 1) val.alignment) = .ok inner ∧
      body = signatureBytes sig ++
        (padding (pos + 1 + sig.length + 1) val.alignment ++ inner) := by
  have hheader : pos + (signatureBytes sig).length = pos + 1 + sig.length + 1 := by
    rw [signatureBytes_length]
    omega
  rw [marshalBody, hsig] at hmarshal
  obtain ⟨bytes, hbytes, hbody⟩ := bind_eq_ok.mp hmarshal
  rw [hheader] at hbytes
  obtain ⟨inner, hinner, rfl⟩ := padded_inv hbytes
  exact ⟨inner, hinner, (pure_eq_ok.mp hbody).symm⟩

/-! ### Values without members -/

theorem ScalarType.range_le (type : ScalarType) : type.range ≤ 256 ^ type.size := by
  cases type <;> decide

theorem elemStart_eq (alignment pos : Nat) :
    elemStart alignment pos = if alignment = 8 then align pos 8 else pos := by
  unfold elemStart elemPadding
  split <;> simp [align]

section Values

variable {env : MarshalEnv} {buffer : Buffer} (hswap : buffer.endianSwap = env.endianSwap)
include hswap

theorem word_ok {width value : Nat} (hholds : Holds buffer.mem pos (env.word width value))
    (hvalue : value < 256 ^ width) : buffer.word pos width = value := by
  rw [Buffer.word, hswap]
  exact hholds.word hvalue

theorem scalarAt_ok {value : Fin type.range}
    (hholds : Holds buffer.mem pos (env.word type.size value.val)) :
    buffer.scalarAt type pos = .ok value := by
  have hword := word_ok hswap hholds (lt_of_lt_of_le value.isLt type.range_le)
  simp [Buffer.scalarAt, hword]

theorem parseString_ok {str : Option (List UInt8)}
    (hholds : Holds buffer.mem (align pos 4) (env.stringBytes str))
    (hlength : (str.getD []).length ≤ maxPacketLen)
    (hend : align pos 4 + (env.stringBytes str).length ≤ buffer.eod) :
    parseString buffer pos =
      .ok (str.getD [], align pos 4 + (env.stringBytes str).length) := by
  rw [stringBytes_length] at hend ⊢
  rw [MarshalEnv.stringBytes, holds_append, word_length, holds_append, holds_cons] at hholds
  obtain ⟨hlen, hstr, hnul, -⟩ := hholds
  have hword := word_ok hswap hlen (lt_of_le_of_lt hlength (by decide))
  have hroom : ¬buffer.eod ≤ align pos 4 + 4 + (str.getD []).length := by omega
  simp only [parseString, hword, not_lt.mpr hlength, if_false, hroom, hnul,
    ne_eq, not_true_eq_false, hstr.read_eq rfl]
  rw [← Nat.add_assoc, ← Nat.add_assoc]

omit hswap in
theorem parseSignature_ok {sig : List UInt8} (hholds : Holds buffer.mem pos (signatureBytes sig))
    (hlength : sig.length ≤ 255) (hend : pos + (signatureBytes sig).length ≤ buffer.eod) :
    parseSignature buffer pos = .ok (sig, pos + (signatureBytes sig).length) := by
  rw [signatureBytes_length] at hend ⊢
  rw [signatureBytes, holds_cons, holds_append, holds_cons] at hholds
  obtain ⟨hlen, hsig, hnul, -⟩ := hholds
  have hbyte : (UInt8.ofNat sig.length).toNat = sig.length :=
    UInt8.toNat_ofNat_of_lt' (show sig.length < 256 by omega)
  have hroom : ¬buffer.eod ≤ pos + 1 + sig.length := by omega
  simp only [parseSignature, hlen, hbyte, hroom, if_false, hnul, ne_eq,
    not_true_eq_false, hsig.read_eq rfl]
  rw [← Nat.add_assoc, ← Nat.add_assoc]

theorem parseScalars_ok (values : List (Fin type.range))
    (hholds : Holds buffer.mem pos (env.scalarBytes values)) :
    parseScalars buffer type values.length pos = .ok values := by
  induction values generalizing pos with
  | nil => rfl
  | cons value values ih =>
    rw [MarshalEnv.scalarBytes, flatMap_cons, holds_append, word_length] at hholds
    rw [length_cons, parseScalars, scalarAt_ok hswap hholds.1, ih hholds.2]
    rfl

theorem parseScalarArray_ok
    (hholds : Holds buffer.mem pos (elemPadding type.size pos ++ env.scalarBytes values)) :
    parseScalarArray buffer type (type.size * values.length) pos =
      .ok (.scalarArray type values, elemStart type.size pos + type.size * values.length) := by
  rw [holds_append] at hholds
  have hvalues := parseScalars_ok hswap values hholds.2
  have hcount : type.size * values.length / type.size = values.length :=
    Nat.mul_div_cancel_left _ type.size_pos
  have hstart : (if type.size = 8 then align pos 8 else pos) =
      pos + (elemPadding type.size pos).length := (elemStart_eq type.size pos).symm
  simp only [parseScalarArray, Nat.mul_mod_right, hstart,
    hcount, hvalues]
  rfl

theorem parseArray_scalars (sig : Signature) (fuel : Nat)
    (hholds : Holds buffer.mem (align pos 4) (env.word 4 (type.size * values.length) ++
      (elemPadding type.size (align pos 4 + 4) ++ env.scalarBytes values)))
    (hsize : type.size * values.length ≤ maxArrayLen)
    (hend : elemStart type.size (align pos 4 + 4) + type.size * values.length ≤ buffer.eod) :
    parseArray buffer (fuel + 1) ((TypeId.scalar type).char :: sig) pos =
      .ok (.scalarArray type values, sig,
        elemStart type.size (align pos 4 + 4) + type.size * values.length) := by
  rw [holds_append, word_length] at hholds
  have hword := word_ok hswap hholds.1 (lt_of_le_of_lt hsize (by decide))
  have hcontainer := parseContainerSignature_array (.scalar type) sig
    (show (Ty.scalar type).Legal true 0 0 from trivial) (by decide) (by decide) (by simp [Ty.sig])
  rw [Ty.sig, singleton_append] at hcontainer
  have hroom : ¬(type.size * values.length > maxArrayLen ∨
      type.size * values.length + (align pos 4 + 4) > buffer.eod) := by
    have : align pos 4 + 4 ≤ elemStart type.size (align pos 4 + 4) := by simp [elemStart]
    omega
  simp only [parseArray, hcontainer, hword, if_neg hroom, headD_cons,
    TypeId.ofChar_char, parseScalarArray_ok hswap hholds.2]
  rfl

end Values

/-! ### Arrays of scalars that are marshalled element by element -/

theorem HasType.scalar (htype : HasType arg (.scalar type)) :
    ∃ value, arg = .scalar type value := by
  cases arg with
  | scalar argType value =>
    cases htype
    exact ⟨value, rfl⟩
  | _ => simp [HasType] at htype

theorem marshalArgs_scalars (env : MarshalEnv) :
    ∀ {elements : List MsgArg} (pos : Nat), AllHaveType elements (.scalar type) →
      type.size ∣ pos →
      marshalArgs env elements pos = .ok (env.scalarBytes (scalarValues type elements))
  | [], _, _, _ => rfl
  | element :: elements, pos, htypes, haligned => by
    obtain ⟨value, rfl⟩ := htypes.1.scalar
    have hpad : padding pos (MsgArg.scalar type value).alignment = [] := by
      rw [padding, show padBytes pos (MsgArg.scalar type value).alignment = 0 from
        padBytes_of_dvd haligned]
      rfl
    have hbody : marshalBody env (.scalar type value)
        (align pos (MsgArg.scalar type value).alignment) = .ok (env.word type.size value.val) := rfl
    have hrest := marshalArgs_scalars env (pos + type.size) htypes.2
      (Nat.dvd_add haligned (dvd_refl _))
    rw [marshalArgs, padded_ok hbody, ok_bind, hpad, nil_append, word_length, hrest,
      scalarValues, dif_pos rfl]
    rfl

theorem size_dvd_elemStart (type : ScalarType) (haligned : 4 ∣ pos) :
    type.size ∣ elemStart type.size pos := by
  rw [elemStart_eq]
  have height := dvd_align pos 8 (by decide)
  cases type with
  | byte => exact one_dvd _
  | boolean | int32 | uint32 => exact haligned
  | int16 | uint16 => exact dvd_trans (by decide : 2 ∣ 4) haligned
  | int64 | uint64 | double => exact height

/-! ### Values take room -/

theorem marshalBody_length_pos :
    ∀ {arg : MsgArg} {type : Ty} {inArray : Bool} {arrays structs pos : Nat} {body : List UInt8},
      HasType arg type → type.Legal inArray arrays structs →
      marshalBody env arg pos = .ok body → 0 < body.length
  | .scalar type value, _, _, _, _, _, _, _, _, hmarshal => by
    cases hmarshal
    simpa [word_length] using type.size_pos
  | .string str, _, _, _, _, _, _, _, _, hmarshal => by
    cases hmarshal
    rw [stringBytes_length]
    omega
  | .objectPath str, _, _, _, _, _, _, htype, _, hmarshal => by
    rw [marshalBody, if_neg (by simpa using htype.2.1)] at hmarshal
    cases hmarshal
    rw [stringBytes_length]
    omega
  | .signature sig, _, _, _, _, _, _, _, _, hmarshal => by
    cases hmarshal
    rw [signatureBytes_length]
    omega
  | .variant val, _, _, _, _, _, _, _, _, hmarshal => by
    cases hsig : makeSignature env.junk [val] with
    | mk status sig =>
      cases status with
      | ok =>
        obtain ⟨inner, -, rfl⟩ := marshalBody_variant_inv hsig hmarshal
        rw [length_append, signatureBytes_length]
        omega
      | _ => simp [marshalBody, hsig] at hmarshal
  | .struct [], _, _, _, _, _, _, htype, hlegal, _ => by
    obtain ⟨types, rfl, rfl⟩ := htype
    exact absurd rfl hlegal.2.1
  | .struct (member :: members), _, _, _, _, _, _, htype, hlegal, hmarshal => by
    obtain ⟨types, rfl, type, rest, rfl, hmember, -⟩ := htype
    obtain ⟨inner, others, hinner, -, rfl⟩ := marshalArgs_cons_inv hmarshal
    have := marshalBody_length_pos hmember hlegal.2.2.1 hinner
    simp only [length_append]
    omega
  | .dictEntry key val, _, _, arrays, structs, _, _, htype, hlegal, hmarshal => by
    obtain ⟨keyType, valType, rfl, hkey, -⟩ := htype
    rw [marshalBody_dictEntry] at hmarshal
    obtain ⟨inner, others, hinner, -, rfl⟩ := marshalArgs_cons_inv hmarshal
    have hkeyLegal := Ty.legal_of_isBasic hlegal.2.2.1 false arrays structs
    have := marshalBody_length_pos hkey hkeyLegal hinner
    simp only [length_append]
    omega
  | .array elemSig elements, _, _, _, _, _, _, htype, _, hmarshal => by
    obtain ⟨elemType, -, rfl, -⟩ := htype
    obtain ⟨bytes, -, -, rfl⟩ := marshalBody_array_inv hmarshal
    rw [length_append, word_length]
    omega
  | .scalarArray type values, _, _, _, _, _, _, _, _, hmarshal => by
    obtain ⟨-, rfl⟩ := marshalBody_scalarArray_inv hmarshal
    rw [length_append, word_length]
    omega
  | .handle _, _, _, _, _, _, _, htype, _, _ | .invalid, _, _, _, _, _, _, htype, _, _ =>
    htype.elim

end AllJoyn.Wire
