import AllJoyn.Wire.Values
import Mathlib.Order.Filter.AtTopBot.Basic

/-!
Parsing what was marshalled. For all sufficiently large fuel the parser
returns every typed value in its normal form and stops where the marshalled
bytes end. The exception are signatures that `MakeSignature` did not copy: where
the uninitialised buffer held zeros, the signature written for a variant ends
behind the `a` of the array that was not copied, and parsing fails.
-/

namespace AllJoyn.Wire

open Lib.Bytes Lib.Result List

/-- For all large fuel parsing gives the value if a condition holds, and fails if
not, provided that the junk that was written is known to be zero. -/
structure Settles {α : Type} (zero fits : Prop) (parse : Nat → Except QStatus α) (value : α) :
    Prop where
  ok : fits → ∀ᶠ fuel in Filter.atTop, parse fuel = .ok value
  error : zero → ¬fits → ∃ status, ∀ᶠ fuel in Filter.atTop, parse fuel = .error status

section Settles

variable {α β γ : Type} {zero fits fits' : Prop} {parse : Nat → Except QStatus α} {value : α}

theorem Settles.of_ok (hfits : fits) (hok : ∀ fuel, parse fuel = .ok value) :
    Settles zero fits parse value :=
  ⟨fun _ => Filter.Eventually.of_forall hok, fun _ hnot => absurd hfits hnot⟩

theorem Settles.of_succ (hsettles : Settles zero fits (fun fuel => parse (fuel + 1)) value) :
    Settles zero fits parse value := by
  have hsucc : ∀ {p : Nat → Prop}, (∀ᶠ fuel in Filter.atTop, p (fuel + 1)) →
      ∀ᶠ fuel in Filter.atTop, p fuel := by
    intro p hp
    rwa [← Filter.map_add_atTop_eq_nat 1]
  refine ⟨fun hfits => hsucc (hsettles.ok hfits), fun hzero hnot => ?_⟩
  obtain ⟨status, herror⟩ := hsettles.error hzero hnot
  exact ⟨status, hsucc herror⟩

/-- Parsing a value and then another, where the rest succeeds with every fuel. -/
theorem Settles.seq {value' : β} {result : γ} {parse' : Nat → Except QStatus γ}
    (hfirst : Settles zero fits parse value) (next : Nat → α → Except QStatus β)
    (hnext : Settles zero fits' (fun fuel => next fuel value) value')
    (combine : α → β → Except QStatus γ) (hcombine : combine value value' = .ok result)
    (hparse : ∀ fuel, parse' (fuel + 1) =
      parse fuel >>= fun first => next fuel first >>= combine first) :
    Settles zero (fits ∧ fits') parse' result := by
  apply Settles.of_succ
  simp only [hparse]
  constructor
  · rintro ⟨hfits, hfits'⟩
    filter_upwards [hfirst.ok hfits, hnext.ok hfits'] with fuel hvalue hvalue'
    rw [hvalue, ok_bind, hvalue', ok_bind, hcombine]
  · intro hzero hnot
    by_cases hfits : fits
    · obtain ⟨status, herror⟩ := hnext.error hzero fun hfits' => hnot ⟨hfits, hfits'⟩
      refine ⟨status, ?_⟩
      filter_upwards [hfirst.ok hfits, herror] with fuel hvalue hstatus
      rw [hvalue, ok_bind, hstatus, error_bind]
    · obtain ⟨status, herror⟩ := hfirst.error hzero hfits
      refine ⟨status, ?_⟩
      filter_upwards [herror] with fuel hstatus
      rw [hstatus, error_bind]

theorem Settles.then {result : β} {parse' : Nat → Except QStatus β}
    (hfirst : Settles zero fits parse value) (next : α → Except QStatus β)
    (hparse : ∀ fuel, parse' (fuel + 1) = parse fuel >>= next) (hnext : next value = .ok result) :
    Settles zero fits parse' result := by
  have hboth := hfirst.seq (fun _ => next) (.of_ok trivial fun _ => hnext) (fun _ => .ok) rfl
    fun fuel => (hparse fuel).trans (congrArg _ (funext fun first => (bind_pure (next first)).symm))
  rwa [and_true] at hboth

end Settles

/-! ### Element types -/

/-- The first character of a signature. -/
def Ty.head : Ty → TypeId
  | .scalar type => .scalar type
  | .string => .string
  | .objectPath => .objectPath
  | .signature => .signature
  | .variant => .variant
  | .array _ => .array
  | .struct _ => .structOpen
  | .dictEntry _ _ => .dictEntryOpen

theorem Ty.headD_sig (type : Ty) (rest : Signature) :
    TypeId.ofChar ((type.sig ++ rest).headD 0) = type.head := by
  cases type <;> simp [Ty.sig, Ty.head]

variable {elemType : Ty} {elements : List MsgArg} {buffer : Buffer} {pos alignment : Nat}
  {env : MarshalEnv}

theorem elemAlignment_sig (type : Ty) : elemAlignment type.sig = type.head.alignment := by
  have hhead := type.headD_sig []
  rw [List.append_nil] at hhead
  rw [elemAlignment, hhead]

def Ty.isScalar : Ty → Bool
  | .scalar _ => true
  | _ => false

theorem normalize_array (hscalar : elemType.isScalar = false) :
    normalize (.array (some elemType.sig) elements) =
      .array (some elemType.sig) (normalizeAll elements) := by
  have hhead := elemType.headD_sig []
  rw [List.append_nil] at hhead
  rw [normalize]
  cases elemType <;> simp_all [Ty.isScalar, Ty.head]

theorem normalize_scalarArray {type : ScalarType} :
    normalize (.array (some (Ty.scalar type).sig) elements) =
      .scalarArray type (scalarValues type elements) := by
  have hhead := (Ty.scalar type).headD_sig []
  rw [List.append_nil] at hhead
  rw [normalize, Option.getD_some, hhead]
  rfl

/-- The type id of the values that the parser returns for a type. -/
def Ty.typeId : Ty → TypeId × Option ScalarType
  | .array (.scalar type) => (.array, some type)
  | .array _ => (.array, none)
  | .struct _ => (.struct, none)
  | .dictEntry _ _ => (.dictEntry, none)
  | type => (type.head, none)

variable {arg : MsgArg} {sig : Signature} {len : Nat} {bytes : List UInt8}

theorem normalize_typeId {type : Ty} (htype : HasType arg type) :
    (normalize arg).typeId = type.typeId := by
  cases arg with
  | scalar | scalarArray =>
    cases htype
    rfl
  | string | objectPath | signature | variant =>
    cases htype.1
    rfl
  | struct =>
    obtain ⟨types, rfl, -⟩ := htype
    rfl
  | dictEntry =>
    obtain ⟨keyType, valType, rfl, -⟩ := htype
    rfl
  | array =>
    obtain ⟨elemType, rfl, rfl, -⟩ := htype
    cases elemType with
    | scalar type => rw [normalize_scalarArray]; rfl
    | _ => rw [normalize_array rfl]; rfl
  | handle | invalid => exact htype.elim

theorem setElements_typed {inArray : Bool} {arrays structs : Nat}
    (htypes : AllHaveType elements elemType) (hlegal : elemType.Legal inArray arrays structs)
    (harrays : arrays ≤ 32) (hstructs : structs ≤ 32) (hlength : elemType.sig.length ≤ 255) :
    setElements elemType.sig (normalizeAll elements) =
      .array (some elemType.sig) (normalizeAll elements) := by
  have hcount := countCompleteTypes_one hlegal harrays hstructs hlength
  have hids : ∀ element ∈ normalizeAll elements, element.typeId = elemType.typeId := by
    rw [normalizeAll_eq_map]
    intro element hmem
    obtain ⟨arg, harg, rfl⟩ := mem_map.mp hmem
    exact normalize_typeId (htypes.mem arg harg)
  rw [setElements, if_pos (elementsStatus_ok hcount hids)]

/-! ### One value -/

/-- `ParseValue` once the type character has been read. -/
def parseTyped (buffer : Buffer) (fuel : Nat) (id : TypeId) (sig : Signature) (arrayElem : Bool)
    (pos : Nat) : Except QStatus (MsgArg × Signature × Nat) :=
  match id with
  | .scalar type => basic sig (parseScalar buffer type pos)
  | .string =>
    basic sig ((parseString buffer pos).map fun (str, pos) => (.string (some str), pos))
  | .objectPath =>
    basic sig ((parseString buffer pos).map fun (str, pos) => (.objectPath (some str), pos))
  | .signature =>
    basic sig ((parseSignature buffer pos).map fun (str, pos) => (.signature (some str), pos))
  | .handle => basic sig (parseHandle buffer pos)
  | .variant => basic sig (parseVariant buffer fuel pos)
  | .array => parseArray buffer fuel sig pos
  | .structOpen => parseStruct buffer fuel sig pos
  | .dictEntryOpen =>
    if arrayElem then parseDictEntry buffer fuel sig pos else .error .busBadSignature
  | _ => .error .busBadValueType

theorem parseValue_succ (buffer : Buffer) (fuel : Nat) (id : TypeId) (sig : Signature)
    (arrayElem : Bool) (pos : Nat) :
    parseValue buffer (fuel + 1) (id.char :: sig) arrayElem pos =
      checkEnd buffer (parseTyped buffer fuel id sig arrayElem pos) := by
  rw [parseValue, TypeId.ofChar_char]
  rfl

/-- The value of a type character, up to the check of its end. -/
theorem Settles.value {zero fits : Prop} {id : TypeId} {rest : Signature} {arrayElem : Bool}
    {stop : Nat}
    (htyped : Settles zero fits (fun fuel => parseTyped buffer fuel id sig arrayElem pos)
      (arg, rest, stop)) (hstop : stop ≤ buffer.eod) :
    Settles zero fits (fun fuel => parseValue buffer fuel (id.char :: sig) arrayElem pos)
      (arg, rest, stop) :=
  htyped.then _ (fun _ => parseValue_succ ..) (if_neg (Nat.not_lt.mpr hstop))

/-! ### Containers -/

theorem parseVariant_succ (fuel : Nat) (hholds : Holds buffer.mem pos (signatureBytes sig))
    (hlength : sig.length ≤ 255) (hend : pos + 1 + sig.length + 1 ≤ buffer.eod) :
    parseVariant buffer (fuel + 1) pos = (do
      let (val, rest, stop) ← parseValue buffer fuel (cString sig) false (pos + 1 + sig.length + 1)
      if rest ≠ [] then .error .busBadSignature else .ok (.variant val, stop)) := by
  rw [signatureBytes, holds_cons, holds_append, holds_cons] at hholds
  obtain ⟨hlen, hsig, hnul, -⟩ := hholds
  have hbyte : (UInt8.ofNat sig.length).toNat = sig.length :=
    UInt8.toNat_ofNat_of_lt' (show sig.length < 256 by omega)
  have hroom : ¬pos + 1 + sig.length ≥ buffer.eod := by omega
  rw [parseVariant]
  simp [hlen, hbyte, if_neg hroom, hnul, hsig.read_eq rfl]

/-- The general case of `ParseArray`: the elements are parsed one by one up to
the end of the array. -/
theorem parseArray_succ (sig : Signature) (fuel : Nat) {arrays structs : Nat}
    (hscalar : elemType.isScalar = false) (hlegal : elemType.Legal true arrays structs)
    (harrays : arrays < 32) (hstructs : structs ≤ 32) (hlength : elemType.sig.length ≤ 255)
    (hword : buffer.word (align pos 4) 4 = len) (hsize : len ≤ maxArrayLen)
    (hend : len + (align pos 4 + 4) ≤ buffer.eod) :
    parseArray buffer (fuel + 1) (elemType.sig ++ sig) pos = (do
      let start := elemStart (elemAlignment elemType.sig) (align pos 4 + 4)
      let (elements, stop) ← parseElements buffer fuel elemType.sig (start + len) start
      return (setElements elemType.sig elements, sig, stop)) := by
  have hcontainer := parseContainerSignature_array elemType sig hlegal harrays hstructs hlength
  have hroom : ¬(len > maxArrayLen ∨ len + (align pos 4 + 4) > buffer.eod) := by omega
  have hsig : (elemType.sig ++ sig).take ((elemType.sig ++ sig).length - sig.length) =
      elemType.sig := by
    rw [length_append, Nat.add_sub_cancel, take_left]
  rw [elemStart_eq]
  simp only [parseArray, hcontainer, ok_bind, hword, if_neg hroom, hsig]
  cases elemType <;> first | rfl | simp [Ty.isScalar] at hscalar

theorem holds_padded {mem : Nat → UInt8} :
    Holds mem pos (padding pos alignment ++ bytes) → Holds mem (align pos alignment) bytes := by
  rw [holds_append, padding_length]
  exact And.right

theorem padded_end {inner others : List UInt8} :
    pos + (padding pos alignment ++ (inner ++ others)).length =
      align pos alignment + inner.length + others.length := by
  rw [length_append, padding_length, padding_append_end, length_append]
  omega

theorem array_end :
    pos + (env.word 4 len ++ (elemPadding alignment (pos + 4) ++ bytes)).length =
      elemStart alignment (pos + 4) + bytes.length := by
  rw [length_append, word_length, length_append, elemStart]
  omega

/-! ### Signatures that were cut off -/

variable {front : Signature} {type : Ty}

theorem CutOf.nonzero (hcut : CutOf front type) : ∀ char ∈ front, char ≠ 0 := by
  induction hcut with
  | array elem => simp [TypeId.char]
  | struct before after hcut ih =>
    simp only [forall_mem_cons, forall_mem_append]
    exact ⟨TypeId.char_ne_zero (by decide), sigs_nonzero before, ih⟩

theorem CutOf.ne_nil (hcut : CutOf front type) : front ≠ [] := by
  cases hcut <;> simp

/-- What is written for a variant whose value does not fit. -/
theorem makeSignature_cut {val : MsgArg} (htype : HasType val type)
    (hlegal : LegalSignature [type]) (hnot : ¬SigFits val 0) :
    ∃ sig front, makeSignature 0 [val] = (.ok, sig) ∧ sig.length ≤ 255 ∧ cString sig = front ∧
      CutOf front type := by
  have hval : HaveTypes [val] [type] := ⟨type, [], rfl, htype, rfl⟩
  obtain ⟨written, hcompose, hwritten⟩ := composeValues_typed 0 [] hval.ofTypes (by simpa using hlegal.2)
  obtain ⟨before, cutType, after, front, tail, htypes, rfl, hcut⟩ :=
    hwritten.cut hlegal.1 rfl fun hfits => hnot hfits.1
  have hsingle : before = [] ∧ cutType = type := by
    cases before with
    | nil => exact ⟨rfl, by simpa using (List.cons.inj htypes).1.symm⟩
    | cons first rest => simp at htypes
  obtain ⟨rfl, rfl⟩ := hsingle
  refine ⟨_, front, hcompose, ?_, ?_, hcut⟩
  · have hlength := hwritten.length
    have hshort := hlegal.2
    simp only [nil_append]
    omega
  · exact cString_append_zero hcut.nonzero tail

theorem parseValue_cut (buffer : Buffer) (pos : Nat) (hcut : CutOf front type)
    (hlegal : type.Legal false 32 32) (hlength : type.sig.length ≤ 255) :
    ∃ status, ∀ fuel, parseValue buffer (fuel + 2) front false pos = .error status := by
  cases hcut with
  | array elem =>
    refine ⟨.busBadSignature, fun fuel => ?_⟩
    rw [parseValue_succ, parseTyped, parseArray]
    rfl
  | struct before after hcut =>
    obtain ⟨status, herror⟩ :=
      parseContainerSignature_struct_cut before after hcut hlegal hlength
    refine ⟨status, fun fuel => ?_⟩
    rw [parseValue_succ, parseTyped, parseStruct, herror]
    rfl

theorem variantsFit_of_basic (htype : HasType arg type) (hbasic : type.isBasic = true) :
    VariantsFit arg := by
  cases arg with
  | variant val =>
    cases htype.1
    cases hbasic
  | struct members =>
    obtain ⟨types, rfl, -⟩ := htype
    cases hbasic
  | dictEntry key val =>
    obtain ⟨keyType, valType, rfl, -⟩ := htype
    cases hbasic
  | array elemSig elements =>
    obtain ⟨elemType, rfl, -⟩ := htype
    cases hbasic
  | _ => trivial

theorem allVariantsFit_of_basic : ∀ {elements : List MsgArg} {type : Ty},
    AllHaveType elements type → type.isBasic = true → AllVariantsFit elements
  | [], _, _, _ => trivial
  | _ :: _, _, htypes, hbasic =>
    ⟨variantsFit_of_basic htypes.1 hbasic, allVariantsFit_of_basic htypes.2 hbasic⟩

/-! ### All values -/

variable (hswap : buffer.endianSwap = env.endianSwap)

include hswap

mutual
/-- A marshalled value is parsed back in its normal form, up to its last byte, unless the
signature of a variant in it was cut off. -/
theorem settles_parseValue :
    ∀ {arg : MsgArg} {type : Ty} (sig : Signature) (pos : Nat) {inArray : Bool}
      {arrays structs : Nat} {body : List UInt8},
      HasType arg type → type.Legal inArray arrays structs → arrays ≤ 32 → structs ≤ 32 →
      type.sig.length ≤ 255 → marshalBody env arg (align pos arg.alignment) = .ok body →
      Holds buffer.mem (align pos arg.alignment) body →
      align pos arg.alignment + body.length ≤ buffer.eod →
      Settles (env.junk = 0) (VariantsFit arg)
        (fun fuel => parseValue buffer fuel (type.sig ++ sig) inArray pos)
        (normalize arg, sig, align pos arg.alignment + body.length)
  | .scalar type value, _, sig, pos, _, _, _, _, htype, _, _, _, _, hmarshal, hholds, hend => by
    cases htype
    cases hmarshal
    have hvalue : buffer.scalarAt type (align pos type.size) = .ok value :=
      scalarAt_ok hswap hholds
    refine (Settles.of_ok trivial fun fuel => ?_).value hend
    simp only [parseTyped, parseScalar, hvalue, word_length]
    rfl
  | .string str, _, sig, pos, _, _, _, _, htype, _, _, _, _, hmarshal, hholds, hend => by
    obtain ⟨rfl, hlength⟩ := htype
    cases hmarshal
    refine (Settles.of_ok trivial fun fuel => ?_).value hend
    simp only [parseTyped, parseString_ok hswap hholds hlength hend]
    rfl
  | .objectPath str, _, sig, pos, _, _, _, _, htype, _, _, _, _, hmarshal, hholds, hend => by
    obtain ⟨rfl, hnonempty, hlength⟩ := htype
    rw [marshalBody, if_neg (by simpa using hnonempty)] at hmarshal
    cases hmarshal
    refine (Settles.of_ok trivial fun fuel => ?_).value hend
    simp only [parseTyped, parseString_ok hswap hholds hlength hend]
    rfl
  | .signature str, _, sig, pos, _, _, _, _, htype, _, _, _, _, hmarshal, hholds, hend => by
    obtain ⟨rfl, hlength⟩ := htype
    cases hmarshal
    have hstart : align pos (MsgArg.signature str).alignment = pos := align_one pos
    rw [hstart] at hholds hend ⊢
    refine (Settles.of_ok trivial fun fuel => ?_).value hend
    simp only [parseTyped, parseSignature_ok hholds hlength hend]
    rfl
  | .variant val, _, sig, pos, _, _, _, _, htype, _, _, _, _, hmarshal, hholds, hend => by
    obtain ⟨rfl, valType, hval, hlegal⟩ := htype
    have hlength := hlegal.2
    rw [sigs, sigs, List.append_nil] at hlength
    have hstart : align pos (MsgArg.variant val).alignment = pos := align_one pos
    rw [hstart] at hmarshal hholds hend ⊢
    by_cases hfits : SigFits val 0
    · obtain ⟨inner, hinner, rfl⟩ :=
        marshalBody_variant_inv (makeSignature_fits env.junk hval.ofType hlength hfits) hmarshal
      have hheader : pos + (signatureBytes valType.sig).length =
          pos + 1 + valType.sig.length + 1 := by
        rw [signatureBytes_length]
        omega
      rw [length_append, ← Nat.add_assoc, hheader, length_append, padding_length,
        padding_append_end] at hend ⊢
      rw [holds_append, hheader] at hholds
      have hparse := settles_parseValue [] _ hval hlegal.1.1 (le_refl 32) (le_refl 32)
        hlength hinner (holds_padded hholds.2) hend
      rw [List.append_nil] at hparse
      have hroom : pos + 1 + valType.sig.length + 1 ≤ buffer.eod := by
        unfold align at hend
        omega
      have hvariants : VariantsFit val ↔ VariantsFit (.variant val) := (and_iff_right hfits).symm
      rw [← hvariants]
      refine (hparse.then (fun r => basic sig (if r.2.1 ≠ [] then .error .busBadSignature
        else .ok (.variant r.1, r.2.2))) (fun fuel => ?_) rfl).value hend
      rw [parseTyped, parseVariant_succ fuel hholds.1 hlength hroom,
        cString_of_nonzero valType.sig_nonzero]
      cases parseValue buffer fuel valType.sig false (pos + 1 + valType.sig.length + 1) <;> rfl
    · refine ⟨fun hvariants => absurd hvariants.1 hfits, fun hjunk _ => ?_⟩
      obtain ⟨composed, front, hcomposed, hshort, rfl, hcut⟩ :=
        makeSignature_cut hval hlegal hfits
      rw [← hjunk] at hcomposed
      obtain ⟨inner, -, rfl⟩ := marshalBody_variant_inv hcomposed hmarshal
      obtain ⟨status, hparse⟩ := parseValue_cut buffer (pos + 1 + composed.length + 1) hcut
        hlegal.1.1 hlength
      rw [holds_append] at hholds
      have hroom : pos + 1 + composed.length + 1 ≤ buffer.eod := by
        rw [length_append, signatureBytes_length] at hend
        omega
      refine ⟨status, Filter.eventually_atTop.mpr ⟨4, fun fuel hfuel => ?_⟩⟩
      obtain ⟨fuel, rfl⟩ := Nat.exists_eq_add_of_le' hfuel
      rw [Ty.sig, singleton_append, parseValue_succ, parseTyped,
        parseVariant_succ _ hholds.1 hshort hroom, hparse]
      rfl
  | .struct members, _, sig, pos, _, arrays, structs, _, htype, hlegal, harrays, hstructs, hlength,
      hmarshal, hholds, hend => by
    obtain ⟨types, rfl, hmembers⟩ := htype
    obtain ⟨hpositive, hnonempty, hallLegal⟩ := hlegal
    simp only [Ty.sig, length_cons, length_append] at hlength
    have hparse := settles_parseValues (TypeId.structClose.char :: sig) _ hmembers hallLegal
      harrays (by omega) (by omega) hmarshal hholds hend
    have hcontainer := parseContainerSignature_struct types sig hallLegal hnonempty harrays
      (by omega) (by omega)
    rw [hmembers.length_eq] at hparse
    rw [Ty.sig, cons_append, append_assoc, singleton_append]
    refine (hparse.then (fun r => .ok (.struct r.1, sig, r.2.2)) (fun fuel => ?_) rfl).value hend
    simp only [parseTyped, parseStruct, hcontainer]
    rfl
  | .dictEntry key val, _, sig, pos, inArray, arrays, structs, _, htype, hlegal, harrays, hstructs,
      hlength, hmarshal, hholds, hend => by
    obtain ⟨keyType, valType, rfl, hkey, hval⟩ := htype
    obtain ⟨rfl, hpositive, hbasic, hvalLegal⟩ := hlegal
    simp only [Ty.sig, length_cons, length_append] at hlength
    rw [marshalBody_dictEntry] at hmarshal
    obtain ⟨keyBytes, others, hkeyBytes, hothers, rfl⟩ := marshalArgs_cons_inv hmarshal
    obtain ⟨valBytes, nothing, hvalBytes, hnothing, rfl⟩ := marshalArgs_cons_inv hothers
    cases hnothing
    have hkeyHolds := holds_append.mp (holds_padded hholds)
    have hvalHolds := holds_append.mp (holds_padded hkeyHolds.2)
    have hkeyLegal := Ty.legal_of_isBasic hbasic false arrays structs
    rw [List.append_nil, length_append, padding_length, padding_append_end,
      length_append, ← Nat.add_assoc, length_append, padding_length,
      padding_append_end] at hend ⊢
    have hkeyParse := settles_parseValue
      (valType.sig ++ TypeId.dictEntryClose.char :: sig) _ hkey hkeyLegal harrays hstructs
      (by omega) hkeyBytes hkeyHolds.1 (by unfold align at hend ⊢; omega)
    have hvalParse := settles_parseValue (TypeId.dictEntryClose.char :: sig) _ hval
      hvalLegal harrays (by omega) (by omega) hvalBytes hvalHolds.1 hend
    have hcontainer := parseContainerSignature_dictEntry keyType valType sig hbasic hvalLegal
      harrays (by omega) (by omega)
    rw [Ty.sig, cons_append, append_assoc, append_assoc, singleton_append]
    refine (hkeyParse.seq (fun fuel r => parseValue buffer fuel r.2.1 false r.2.2) hvalParse
      (fun r s => .ok (.dictEntry r.1 s.1, sig, s.2.2)) rfl fun fuel => ?_).value hend
    simp only [parseTyped, parseDictEntry, hcontainer]
    rfl
  | .array elemSig elements, _, sig, pos, _, arrays, structs, _, htype, hlegal, harrays, hstructs,
      hlength, hmarshal, hholds, hend => by
    obtain ⟨elemType, rfl, rfl, helements⟩ := htype
    obtain ⟨hpositive, helemLegal⟩ := hlegal
    simp only [Ty.sig, length_cons] at hlength
    obtain ⟨bytes, hbytes, hsize, rfl⟩ := marshalBody_array_inv hmarshal
    have hstart : align pos (MsgArg.array (some elemType.sig) elements).alignment =
        align pos 4 := rfl
    rw [hstart] at hbytes hholds hend ⊢
    rw [array_end] at hend ⊢
    cases hscalar : elemType.isScalar with
    | true =>
      obtain ⟨type, rfl⟩ : ∃ type, elemType = .scalar type := by
        cases elemType <;> simp_all [Ty.isScalar]
      have halignment : elemAlignment (Ty.scalar type).sig = type.size := elemAlignment_sig _
      rw [halignment] at hbytes hholds hend ⊢
      rw [marshalArgs_scalars env _ helements (size_dvd_elemStart type
        (Nat.dvd_add (dvd_align pos 4 (by decide)) (dvd_refl 4)))] at hbytes
      cases hbytes
      rw [scalarBytes_length] at hsize hholds hend ⊢
      rw [normalize_scalarArray]
      refine ((Settles.of_ok (allVariantsFit_of_basic helements rfl) fun fuel => ?_).of_succ).value hend
      exact parseArray_scalars hswap sig fuel hholds hsize hend
    | false =>
      rw [holds_append, word_length, holds_append] at hholds
      have hword := word_ok hswap hholds.1 (lt_of_le_of_lt hsize (by decide))
      have hparse := settles_parseElements _ helements helemLegal (by omega) hstructs
        (by omega) hbytes hholds.2.2 hend
      have hroom : bytes.length + (align pos 4 + 4) ≤ buffer.eod := by
        unfold elemStart at hend
        omega
      rw [normalize_array hscalar]
      rw [← setElements_typed helements helemLegal (by omega) hstructs (by omega)]
      exact (hparse.then (fun r => .ok (setElements elemType.sig r.1, sig, r.2)) (fun fuel =>
        parseArray_succ sig fuel hscalar helemLegal (by omega) hstructs (by omega) hword hsize
          hroom) rfl).value hend
  | .scalarArray type values, _, sig, pos, _, _, _, _, htype, _, _, _, _, hmarshal, hholds,
      hend => by
    cases htype
    obtain ⟨hsize, rfl⟩ := marshalBody_scalarArray_inv hmarshal
    rw [array_end, scalarBytes_length] at hend ⊢
    refine ((Settles.of_ok trivial fun fuel => ?_).of_succ).value hend
    exact parseArray_scalars hswap sig fuel hholds hsize hend
  | .handle _, _, _, _, _, _, _, _, htype, _, _, _, _, _, _, _
  | .invalid, _, _, _, _, _, _, _, htype, _, _, _, _, _, _, _ => htype.elim

theorem settles_parseValues :
    ∀ {args : List MsgArg} {types : List Ty} (sig : Signature) (pos : Nat)
      {arrays structs : Nat} {bytes : List UInt8},
      HaveTypes args types → AllLegal arrays structs types → arrays ≤ 32 → structs ≤ 32 →
      (sigs types).length ≤ 255 → marshalArgs env args pos = .ok bytes →
      Holds buffer.mem pos bytes → pos + bytes.length ≤ buffer.eod →
      Settles (env.junk = 0) (AllVariantsFit args)
        (fun fuel => parseValues buffer fuel args.length (sigs types ++ sig) pos)
        (normalizeAll args, sig, pos + bytes.length)
  | [], _, sig, pos, _, _, _, htypes, _, _, _, _, hmarshal, _, _ => by
    cases htypes
    cases hmarshal
    exact (Settles.of_ok trivial fun fuel => by rw [length_nil, parseValues]; rfl).of_succ
  | arg :: args, _, sig, pos, _, _, _, htypes, hlegal, harrays, hstructs, hlength, hmarshal, hholds,
      hend => by
    obtain ⟨type, rest, rfl, harg, hargs⟩ := htypes
    obtain ⟨inner, others, hinner, hothers, rfl⟩ := marshalArgs_cons_inv hmarshal
    simp only [sigs, length_append] at hlength
    have hbody := holds_append.mp (holds_padded hholds)
    rw [padded_end] at hend ⊢
    have hfirst := settles_parseValue (sigs rest ++ sig) pos harg hlegal.1 harrays hstructs
      (by omega) hinner hbody.1 (by omega)
    have hrest := settles_parseValues sig _ hargs hlegal.2 harrays hstructs (by omega)
      hothers hbody.2 hend
    rw [sigs, append_assoc, length_cons]
    exact hfirst.seq (fun fuel r => parseValues buffer fuel args.length r.2.1 r.2.2) hrest
      (fun r s => .ok (r.1 :: s.1, s.2)) rfl fun fuel => by rw [parseValues]; rfl

theorem settles_parseElements :
    ∀ {elements : List MsgArg} {elemType : Ty} (pos : Nat) {arrays structs : Nat}
      {bytes : List UInt8},
      AllHaveType elements elemType → elemType.Legal true arrays structs → arrays ≤ 32 →
      structs ≤ 32 → elemType.sig.length ≤ 255 → marshalArgs env elements pos = .ok bytes →
      Holds buffer.mem pos bytes → pos + bytes.length ≤ buffer.eod →
      Settles (env.junk = 0) (AllVariantsFit elements)
        (fun fuel => parseElements buffer fuel elemType.sig (pos + bytes.length) pos)
        (normalizeAll elements, pos + bytes.length)
  | [], _, pos, _, _, _, _, _, _, _, _, hmarshal, _, _ => by
    cases hmarshal
    exact (Settles.of_ok trivial fun fuel => by rw [parseElements]; exact if_neg (by simp)).of_succ
  | element :: elements, elemType, pos, _, _, _, htypes, hlegal, harrays, hstructs, hlength,
      hmarshal, hholds, hend => by
    obtain ⟨inner, others, hinner, hothers, rfl⟩ := marshalArgs_cons_inv hmarshal
    have hbody := holds_append.mp (holds_padded hholds)
    have hroom := marshalBody_length_pos htypes.1 hlegal hinner
    rw [padded_end] at hend ⊢
    have hfirst := settles_parseValue [] pos htypes.1 hlegal harrays hstructs hlength hinner
      hbody.1 (by omega)
    have hrest := settles_parseElements _ htypes.2 hlegal harrays hstructs hlength hothers
      hbody.2 hend
    have hmore : pos < align pos element.alignment + inner.length + others.length := by
      unfold align
      omega
    rw [List.append_nil] at hfirst
    refine hfirst.seq (fun fuel r => parseElements buffer fuel elemType.sig _ r.2.2) hrest
      (fun r s => .ok (r.1 :: s.1, s.2)) rfl fun fuel => ?_
    rw [parseElements, if_pos hmore]
    rfl
end

end AllJoyn.Wire
