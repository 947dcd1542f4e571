import AllJoyn.Wire.Values

/-!
The encoding of argument values by the rules of the wire format, for values
that are built as their types say. `MarshalArgs` writes this encoding exactly
for the values it takes: those without empty object paths whose signatures it
composes without a gap.
-/

namespace AllJoyn.Wire

open Lib.Bytes Lib.Result List

variable {pos pos' : Nat} {arg : MsgArg} {type : Ty} {bytes : List UInt8} {args : List MsgArg}

def stringEncoding (swap : Bool) (str : List UInt8) : List UInt8 :=
  wordBytes swap 4 str.length ++ (str ++ [0])

def scalarsEncoding (swap : Bool) {type : ScalarType} (values : List (Fin type.range)) :
    List UInt8 :=
  values.flatMap fun value => wordBytes swap type.size value.val

mutual
/-- The bytes of a value that starts, behind its padding, at `pos`. -/
def encodeBody (swap : Bool) : MsgArg → Nat → List UInt8
  | .invalid, _ | .handle _, _ => []
  | .scalar type value, _ => wordBytes swap type.size value.val
  | .string str, _ | .objectPath str, _ => stringEncoding swap (str.getD [])
  | .signature sig, _ => signatureBytes (sig.getD [])
  | .variant val, pos =>
    let start := pos + (signatureBytes val.sig).length
    signatureBytes val.sig ++
      (padding start val.alignment ++ encodeBody swap val (align start val.alignment))
  | .struct members, pos => encodeArgs swap members pos
  | .dictEntry key val, pos =>
    let keyBytes := padding pos key.alignment ++ encodeBody swap key (align pos key.alignment)
    let start := pos + keyBytes.length
    keyBytes ++ (padding start val.alignment ++ encodeBody swap val (align start val.alignment))
  | .array elemSig elements, pos =>
    let pad := elemPadding (elemAlignment (elemSig.getD [])) (pos + 4)
    let bytes := encodeArgs swap elements (pos + 4 + pad.length)
    wordBytes swap 4 bytes.length ++ (pad ++ bytes)
  | .scalarArray type values, pos =>
    wordBytes swap 4 (type.size * values.length) ++
      (elemPadding type.size (pos + 4) ++ scalarsEncoding swap values)

def encodeArgs (swap : Bool) : List MsgArg → Nat → List UInt8
  | [], _ => []
  | arg :: args, pos =>
    let bytes := padding pos arg.alignment ++ encodeBody swap arg (align pos arg.alignment)
    bytes ++ encodeArgs swap args (pos + bytes.length)
end

/-- A value with its padding. -/
def encodeArg (swap : Bool) (arg : MsgArg) (pos : Nat) : List UInt8 :=
  padding pos arg.alignment ++ encodeBody swap arg (align pos arg.alignment)

variable (swap : Bool)

theorem encodeArgs_cons (arg : MsgArg) (args : List MsgArg) (pos : Nat) :
    encodeArgs swap (arg :: args) pos =
      encodeArg swap arg pos ++ encodeArgs swap args (pos + (encodeArg swap arg pos).length) := rfl

theorem encodeBody_variant (val : MsgArg) (pos : Nat) :
    encodeBody swap (.variant val) pos =
      signatureBytes val.sig ++ encodeArg swap val (pos + (signatureBytes val.sig).length) := by
  rfl

theorem encodeBody_dictEntry (key val : MsgArg) (pos : Nat) :
    encodeBody swap (.dictEntry key val) pos = encodeArgs swap [key, val] pos := by
  rw [encodeArgs_cons, encodeArgs_cons, encodeArgs, List.append_nil]
  rfl

theorem encodeBody_array (elemSig : Option Signature) (elements : List MsgArg)
    (pos : Nat) :
    encodeBody swap (.array elemSig elements) pos =
      let start := elemStart (elemAlignment (elemSig.getD [])) (pos + 4)
      wordBytes swap 4 (encodeArgs swap elements start).length ++
        (elemPadding (elemAlignment (elemSig.getD [])) (pos + 4) ++
          encodeArgs swap elements start) := by
  rfl

theorem scalarsEncoding_length {type : ScalarType}
    (values : List (Fin type.range)) :
    (scalarsEncoding swap values).length = type.size * values.length :=
  scalarBytes_length ⟨0, swap, fun _ => .ok 0⟩ values

/-! ### Positions count modulo eight -/

theorem TypeId.alignment_dvd (id : TypeId) : id.alignment = 0 ∨ id.alignment ∣ 8 := by
  cases id with
  | scalar type => right; cases type <;> decide
  | _ => decide

theorem padBytes_zero (pos : Nat) : padBytes pos 0 = 0 := by
  simp [padBytes]

theorem padBytes_alignment (hpos : pos % 8 = pos' % 8) (id : TypeId) :
    padBytes pos id.alignment = padBytes pos' id.alignment := by
  obtain hzero | hdvd := id.alignment_dvd
  · rw [hzero, padBytes_zero, padBytes_zero]
  · exact padBytes_congr hpos hdvd

theorem align_mod (hpos : pos % 8 = pos' % 8) (id : TypeId) :
    align pos id.alignment % 8 = align pos' id.alignment % 8 := by
  rw [align, align, padBytes_alignment hpos id]
  omega

theorem elemPadding_congr (hpos : pos % 8 = pos' % 8) (alignment : Nat) :
    elemPadding alignment pos = elemPadding alignment pos' := by
  unfold elemPadding padding
  rw [padBytes_congr hpos (dvd_refl 8)]

theorem encodeArg_congr_of {swap : Bool} (hpos : pos % 8 = pos' % 8)
    (hbody : encodeBody swap arg (align pos arg.alignment) =
      encodeBody swap arg (align pos' arg.alignment)) :
    encodeArg swap arg pos = encodeArg swap arg pos' := by
  have hpad : padBytes pos arg.alignment = padBytes pos' arg.alignment :=
    padBytes_alignment hpos arg.typeId.1
  rw [encodeArg, encodeArg, padding, padding, hpad, hbody]

mutual
theorem encodeBody_congr : ∀ (arg : MsgArg) {pos pos' : Nat}, pos % 8 = pos' % 8 →
    encodeBody swap arg pos = encodeBody swap arg pos'
  | .invalid, _, _, _ | .handle _, _, _, _ | .scalar _ _, _, _, _ | .string _, _, _, _
  | .objectPath _, _, _, _ | .signature _, _, _, _ => by simp only [encodeBody]
  | .variant val, pos, pos', hpos => by
    have hstart : (pos + (signatureBytes val.sig).length) % 8 =
        (pos' + (signatureBytes val.sig).length) % 8 := by omega
    rw [encodeBody_variant, encodeBody_variant,
      encodeArg_congr_of hstart (encodeBody_congr val (align_mod hstart val.typeId.1))]
  | .struct members, _, _, hpos => by
    rw [encodeBody, encodeBody, encodeArgs_congr members hpos]
  | .dictEntry key val, pos, pos', hpos => by
    have hkey := encodeArg_congr_of hpos (encodeBody_congr key (align_mod hpos key.typeId.1))
    have hstart : (pos + (encodeArg swap key pos').length) % 8 =
        (pos' + (encodeArg swap key pos').length) % 8 := by omega
    have hval :=
      encodeArg_congr_of hstart (encodeBody_congr val (align_mod hstart val.typeId.1))
    rw [encodeBody_dictEntry, encodeBody_dictEntry, encodeArgs_cons, encodeArgs_cons,
      encodeArgs_cons, encodeArgs_cons, hkey, hval, encodeArgs, encodeArgs]
  | .array elemSig elements, pos, pos', hpos => by
    have hpad := elemPadding_congr (show (pos + 4) % 8 = (pos' + 4) % 8 by omega)
      (elemAlignment (elemSig.getD []))
    have helements := encodeArgs_congr elements
      (show (pos + 4 + (elemPadding (elemAlignment (elemSig.getD [])) (pos' + 4)).length) % 8 =
        (pos' + 4 + (elemPadding (elemAlignment (elemSig.getD [])) (pos' + 4)).length) % 8 by
          omega)
    simp only [encodeBody, hpad, helements]
  | .scalarArray type values, pos, pos', hpos => by
    rw [encodeBody, encodeBody, elemPadding_congr (show (pos + 4) % 8 = (pos' + 4) % 8 by omega)]

theorem encodeArgs_congr : ∀ (args : List MsgArg) {pos pos' : Nat},
    pos % 8 = pos' % 8 → encodeArgs swap args pos = encodeArgs swap args pos'
  | [], _, _, _ => rfl
  | arg :: args, pos, pos', hpos => by
    have harg := encodeArg_congr_of hpos (encodeBody_congr arg (align_mod hpos arg.typeId.1))
    have hargs := encodeArgs_congr args (show (pos + (encodeArg swap arg pos').length) % 8 =
      (pos' + (encodeArg swap arg pos').length) % 8 by omega)
    rw [encodeArgs_cons, encodeArgs_cons, harg, hargs]
end

/-! ### What `MarshalArgs` takes -/

mutual
/-- `MarshalArgs` does not refuse the value, and the signatures it composes for
the value have no gap. -/
def Taken : MsgArg → Prop
  | .objectPath str => str.getD [] ≠ []
  | .variant val => SigFits val 0 ∧ Taken val
  | .struct members => AllTaken members
  | .dictEntry key val => Taken key ∧ Taken val
  | .array _ elements => (∀ element ∈ elements, SigFits element 0) ∧ AllTaken elements
  | _ => True

def AllTaken : List MsgArg → Prop
  | [] => True
  | arg :: args => Taken arg ∧ AllTaken args
end

mutual
/-- Every variant in the value has a signature shorter than 255 characters. -/
def ShortVariants : MsgArg → Prop
  | .variant val => val.sig.length < 255 ∧ ShortVariants val
  | .struct members => AllShort members
  | .dictEntry key val => ShortVariants key ∧ ShortVariants val
  | .array _ elements => AllShort elements
  | _ => True

def AllShort : List MsgArg → Prop
  | [] => True
  | arg :: args => ShortVariants arg ∧ AllShort args
end

variable {val : MsgArg} {taken : Prop} {encoded : List UInt8}

/-- The signature composed for a value has the length of its type's signature,
and a NUL in it where the buffer was zero and the signature does not fit. -/
theorem makeSignature_ofType (junk : Nat → UInt8) (htype : OfType val type)
    (hlength : type.sig.length ≤ 255) :
    ∃ written, makeSignature junk [val] = (.ok, written) ∧ written.length = type.sig.length ∧
      (junk = 0 → ¬SigFits val 0 → 0 ∈ written) := by
  have hval : OfTypes [val] [type] := ⟨type, [], rfl, htype, rfl⟩
  obtain ⟨written, hcompose, hwritten⟩ := composeValues_typed junk [] hval (by simpa [sigs])
  refine ⟨written, by simpa [makeSignature] using hcompose, ?_, ?_⟩
  · simpa [sigs] using hwritten.length
  · intro hjunk hnot
    exact hwritten.zero hjunk fun hfits => hnot hfits.1

theorem sigFits_of_hasSignature (htype : OfType arg type) (hlength : type.sig.length ≤ 255)
    (hsignature : arg.hasSignature 0 type.sig = true) : SigFits arg 0 := by
  by_contra hnot
  obtain ⟨written, hmake, hwritten, hzero⟩ := makeSignature_ofType 0 htype hlength
  rw [MsgArg.hasSignature, hmake, beq_iff_eq] at hsignature
  -- a string with a NUL in it is longer than what precedes the NUL
  have hsame : cString written = written :=
    (List.takeWhile_prefix _).eq_of_length (by rw [← cString, hsignature, hwritten])
  have hnonzero := type.sig_nonzero 0 (by rw [← hsignature, hsame]; exact hzero rfl hnot)
  exact hnonzero rfl

/-! ### `MarshalArgs` writes the encoding -/

section Marshal

variable {env : MarshalEnv}

theorem marshalArgs_cons_ok (hbody : marshalBody env arg (align pos arg.alignment) =
      .ok (encodeBody env.endianSwap arg (align pos arg.alignment)))
    (hrest : marshalArgs env args (pos + (encodeArg env.endianSwap arg pos).length) =
      .ok (encodeArgs env.endianSwap args (pos + (encodeArg env.endianSwap arg pos).length))) :
    marshalArgs env (arg :: args) pos = .ok (encodeArgs env.endianSwap (arg :: args) pos) := by
  rw [marshalArgs, padded_ok hbody, ok_bind, ← encodeArg, hrest, ok_bind, encodeArgs_cons, pure_ok]

theorem OfTypes.mem_ofType : ∀ {args : List MsgArg} {types : List Ty}, OfTypes args types →
    (sigs types).length ≤ 255 → ∀ arg ∈ args, ∃ type, OfType arg type ∧ type.sig.length ≤ 255
  | [], _, _, _ => by simp
  | arg :: args, _, htypes, hlength => by
    obtain ⟨type, rest, rfl, harg, hargs⟩ := htypes
    rw [sigs, length_append] at hlength
    rw [forall_mem_cons]
    exact ⟨⟨type, harg, by omega⟩, hargs.mem_ofType (by omega)⟩

theorem AllOfType.mem_ofType {elements : List MsgArg} (htypes : AllOfType elements type)
    (hlength : type.sig.length ≤ 255) :
    ∀ element ∈ elements, ∃ type, OfType element type ∧ type.sig.length ≤ 255 :=
  fun element hmem => ⟨type, htypes.mem element hmem, hlength⟩

mutual
theorem marshalBody_encodes : ∀ {arg : MsgArg} {type : Ty} (pos : Nat), OfType arg type →
    type.sig.length ≤ 255 → ShortVariants arg → Taken arg →
    (encodeBody env.endianSwap arg pos).length ≤ maxArrayLen →
    marshalBody env arg pos = .ok (encodeBody env.endianSwap arg pos)
  | .scalar _ _, _, _, _, _, _, _, _ | .string _, _, _, _, _, _, _, _
  | .signature _, _, _, _, _, _, _, _ => rfl
  | .objectPath str, _, _, _, _, _, htaken, _ => by
    rw [Taken] at htaken
    rw [marshalBody, if_neg (by simpa using htaken)]
    rfl
  | .variant val, _, pos, htype, _, hshort, htaken, hroom => by
    obtain ⟨-, valType, hval⟩ := htype
    have hlength : valType.sig.length ≤ 255 := by
      rw [← hval.sig_eq]
      exact hshort.1.le
    rw [encodeBody_variant, length_append, encodeArg, length_append] at hroom
    have hbody := marshalBody_encodes (align (pos + (signatureBytes val.sig).length) val.alignment)
      hval hlength hshort.2 htaken.2 (by omega)
    rw [marshalBody, makeSignature_fits env.junk hval hlength htaken.1, ← hval.sig_eq,
      encodeBody_variant]
    simp only [padded_ok hbody, ok_bind, pure_ok, encodeArg]
  | .struct members, _, pos, htype, hlength, hshort, htaken, hroom => by
    obtain ⟨types, rfl, hmembers⟩ := htype
    simp only [Ty.sig, length_cons, length_append] at hlength
    exact marshalArgs_encodes pos (hmembers.mem_ofType (by omega)) hshort htaken hroom
  | .dictEntry key val, _, pos, htype, hlength, hshort, htaken, hroom => by
    obtain ⟨keyType, valType, rfl, hkey, hval⟩ := htype
    simp only [Ty.sig, length_cons, length_append] at hlength
    rw [encodeBody_dictEntry] at hroom ⊢
    rw [encodeArgs_cons, length_append, encodeArgs_cons, length_append] at hroom
    have hfirst := marshalBody_encodes (align pos key.alignment) hkey (by omega) hshort.1 htaken.1
      (by rw [encodeArg, length_append] at hroom; omega)
    have hsecond := marshalBody_encodes
      (align (pos + (encodeArg env.endianSwap key pos).length) val.alignment) hval (by omega)
      hshort.2 htaken.2
      (by rw [encodeArg.eq_def env.endianSwap val, length_append] at hroom; omega)
    rw [marshalBody_dictEntry]
    exact marshalArgs_cons_ok hfirst (marshalArgs_cons_ok hsecond rfl)
  | .array _ elements, _, pos, htype, hlength, hshort, htaken, hroom => by
    obtain ⟨elemType, rfl, rfl, helements⟩ := htype
    simp only [Ty.sig, length_cons] at hlength
    rw [encodeBody_array] at hroom ⊢
    simp only [Option.getD_some, length_append] at hroom ⊢
    have hbytes := marshalArgs_encodes (elemStart (elemAlignment elemType.sig) (pos + 4))
      (helements.mem_ofType (by omega)) hshort htaken.2 (by omega)
    have hsignatures : elements.all (·.hasSignature env.junk elemType.sig) = true := by
      rw [all_eq_true]
      intro element hmem
      exact hasSignature_fits env.junk (helements.mem element hmem) (by omega)
        (htaken.1 element hmem)
    exact marshalBody_array_ok hsignatures hbytes (by omega)
  | .scalarArray type values, _, pos, _, _, _, _, hroom => by
    rw [encodeBody, length_append, length_append, scalarsEncoding_length] at hroom
    have hsize : type.size * values.length ≤ maxArrayLen := by omega
    rw [marshalBody, checkedArraySize_ok hsize]
    rfl
  | .handle _, _, _, htype, _, _, _, _ | .invalid, _, _, htype, _, _, _, _ => htype.elim

theorem marshalArgs_encodes : ∀ {args : List MsgArg} (pos : Nat),
    (∀ arg ∈ args, ∃ type, OfType arg type ∧ type.sig.length ≤ 255) → AllShort args →
    AllTaken args → (encodeArgs env.endianSwap args pos).length ≤ maxArrayLen →
    marshalArgs env args pos = .ok (encodeArgs env.endianSwap args pos)
  | [], _, _, _, _, _ => rfl
  | arg :: args, pos, htypes, hshort, htaken, hroom => by
    rw [forall_mem_cons] at htypes
    obtain ⟨⟨type, harg, hlength⟩, hargs⟩ := htypes
    rw [encodeArgs_cons, length_append] at hroom
    have hbody := marshalBody_encodes (align pos arg.alignment) harg hlength hshort.1 htaken.1
      (by rw [encodeArg, length_append] at hroom; omega)
    exact marshalArgs_cons_ok hbody (marshalArgs_encodes _ hargs hshort.2 htaken.2 (by omega))
end

/-! ### Only for the values it takes -/

/-- The bytes take the room of an encoding, and where the uninitialised buffers hold zeros
they are this encoding only under a condition. -/
structure InRoom (env : MarshalEnv) (taken : Prop) (bytes encoded : List UInt8) : Prop where
  length : bytes.length = encoded.length
  taken : env.junk = 0 → bytes = encoded → taken

theorem InRoom.of_taken (htaken : taken) : InRoom env taken bytes bytes :=
  ⟨rfl, fun _ _ => htaken⟩

theorem InRoom.append {taken' : Prop} {bytes' encoded' : List UInt8}
    (hfirst : InRoom env taken bytes encoded) (hsecond : InRoom env taken' bytes' encoded') :
    InRoom env (taken ∧ taken') (bytes ++ bytes') (encoded ++ encoded') := by
  refine ⟨by rw [length_append, length_append, hfirst.length, hsecond.length], ?_⟩
  intro hjunk hsame
  obtain ⟨heq, heq'⟩ := append_inj hsame hfirst.length
  exact ⟨hfirst.taken hjunk heq, hsecond.taken hjunk heq'⟩

theorem InRoom.behind (front : List UInt8) (hwritten : InRoom env taken bytes encoded) :
    InRoom env taken (front ++ bytes) (front ++ encoded) := by
  have hboth := (InRoom.of_taken trivial : InRoom env True front front).append hwritten
  rwa [true_and] at hboth

theorem marshalBody_variant_written {valType : Ty} (hval : OfType val valType)
    (hlength : valType.sig.length ≤ 255) (hmarshal : marshalBody env (.variant val) pos = .ok bytes)
    (hwritten : ∀ {pos inner}, marshalBody env val pos = .ok inner →
      InRoom env taken inner (encodeBody env.endianSwap val pos)) :
    InRoom env (SigFits val 0 ∧ taken) bytes (encodeBody env.endianSwap (.variant val) pos) := by
  obtain ⟨written, hmake, hsame, hzero⟩ := makeSignature_ofType env.junk hval hlength
  obtain ⟨inner, hinner, rfl⟩ := marshalBody_variant_inv hmake hmarshal
  have hstart : pos + 1 + written.length + 1 = pos + (signatureBytes val.sig).length := by
    rw [signatureBytes_length, hval.sig_eq]
    omega
  rw [hstart] at hinner ⊢
  refine InRoom.append ⟨?_, fun hjunk heq => ?_⟩ ((hwritten hinner).behind _)
  · rw [signatureBytes_length, signatureBytes_length, hsame, hval.sig_eq]
  · have hsig : written = val.sig :=
      (append_inj (List.cons.inj heq).2 (by rw [hsame, hval.sig_eq])).1
    by_contra hnot
    have hmem := hzero hjunk hnot
    rw [hsig, hval.sig_eq] at hmem
    exact valType.sig_nonzero 0 hmem rfl

theorem marshalArgs_cons_written {taken' : Prop}
    (hmarshal : marshalArgs env (arg :: args) pos = .ok bytes)
    (harg : ∀ {pos inner}, marshalBody env arg pos = .ok inner →
      InRoom env taken inner (encodeBody env.endianSwap arg pos))
    (hargs : ∀ {pos rest}, marshalArgs env args pos = .ok rest →
      InRoom env taken' rest (encodeArgs env.endianSwap args pos)) :
    InRoom env (taken ∧ taken') bytes (encodeArgs env.endianSwap (arg :: args) pos) := by
  obtain ⟨inner, rest, hinner, hrest, rfl⟩ := marshalArgs_cons_inv hmarshal
  have hfirst := (harg hinner).behind (padding pos arg.alignment)
  have hmiddle : align pos arg.alignment + inner.length =
      pos + (encodeArg env.endianSwap arg pos).length := by
    rw [encodeArg, ← hfirst.length, length_append, padding_length, padding_append_end]
  rw [hmiddle] at hrest
  rw [← append_assoc]
  exact hfirst.append (hargs hrest)

mutual
theorem marshalBody_written : ∀ {arg : MsgArg} {type : Ty} {pos : Nat} {bytes : List UInt8},
    OfType arg type → type.sig.length ≤ 255 → ShortVariants arg →
    marshalBody env arg pos = .ok bytes →
    InRoom env (Taken arg) bytes (encodeBody env.endianSwap arg pos)
  | .scalar _ _, _, _, _, _, _, _, hmarshal | .string _, _, _, _, _, _, _, hmarshal
  | .signature _, _, _, _, _, _, _, hmarshal => by
    cases hmarshal
    exact .of_taken trivial
  | .objectPath str, _, _, _, _, _, _, hmarshal => by
    rw [marshalBody] at hmarshal
    split at hmarshal
    · cases hmarshal
    · next hnonempty =>
        cases hmarshal
        exact .of_taken (by simpa [Taken] using hnonempty)
  | .variant val, _, _, _, htype, _, hshort, hmarshal => by
    obtain ⟨-, valType, hval⟩ := htype
    have hlength : valType.sig.length ≤ 255 := hval.sig_eq ▸ hshort.1.le
    exact marshalBody_variant_written hval hlength hmarshal
      (marshalBody_written hval hlength hshort.2)
  | .struct members, _, _, _, htype, hlength, hshort, hmarshal => by
    obtain ⟨types, rfl, hmembers⟩ := htype
    simp only [Ty.sig, length_cons, length_append] at hlength
    exact marshalArgs_written (hmembers.mem_ofType (by omega)) hshort hmarshal
  | .dictEntry key val, _, _, _, htype, hlength, hshort, hmarshal => by
    obtain ⟨keyType, valType, rfl, hkey, hval⟩ := htype
    simp only [Ty.sig, length_cons, length_append] at hlength
    rw [marshalBody_dictEntry] at hmarshal
    have hboth := marshalArgs_cons_written hmarshal
      (marshalBody_written hkey (by omega) hshort.1) fun hrest =>
        marshalArgs_cons_written hrest (marshalBody_written hval (by omega) hshort.2)
          fun hlast => by cases hlast; exact .of_taken trivial
    rw [and_true] at hboth
    rwa [encodeBody_dictEntry]
  | .array _ elements, _, pos, _, htype, hlength, hshort, hmarshal => by
    obtain ⟨elemType, rfl, rfl, helements⟩ := htype
    simp only [Ty.sig, length_cons] at hlength
    obtain ⟨bytes, hbytes, -, rfl⟩ := marshalBody_array_inv hmarshal
    have hwritten := marshalArgs_written (helements.mem_ofType (by omega)) hshort hbytes
    rw [encodeBody_array]
    simp only [Option.getD_some, ← hwritten.length]
    refine ⟨(hwritten.behind _).behind _ |>.length, fun hjunk hsame => ⟨fun element hmem => ?_,
      ((hwritten.behind _).behind _).taken hjunk hsame⟩⟩
    have hsignatures : elements.all (·.hasSignature env.junk elemType.sig) = true := by
      by_contra hnot
      rw [marshalBody, if_neg hnot] at hmarshal
      cases hmarshal
    rw [all_eq_true, hjunk] at hsignatures
    exact sigFits_of_hasSignature (helements.mem element hmem) (by omega)
      (hsignatures element hmem)
  | .scalarArray type values, _, _, _, _, _, _, hmarshal => by
    obtain ⟨-, rfl⟩ := marshalBody_scalarArray_inv hmarshal
    exact .of_taken trivial
  | .handle _, _, _, _, htype, _, _, _ | .invalid, _, _, _, htype, _, _, _ => htype.elim

theorem marshalArgs_written : ∀ {args : List MsgArg} {pos : Nat} {bytes : List UInt8},
    (∀ arg ∈ args, ∃ type, OfType arg type ∧ type.sig.length ≤ 255) → AllShort args →
    marshalArgs env args pos = .ok bytes →
    InRoom env (AllTaken args) bytes (encodeArgs env.endianSwap args pos)
  | [], _, _, _, _, hmarshal => by
    cases hmarshal
    exact .of_taken trivial
  | arg :: args, _, _, htypes, hshort, hmarshal => by
    rw [forall_mem_cons] at htypes
    obtain ⟨⟨type, harg, hlength⟩, hargs⟩ := htypes
    exact marshalArgs_cons_written hmarshal (marshalBody_written harg hlength hshort.1)
      (marshalArgs_written hargs hshort.2)
end

end Marshal

end AllJoyn.Wire
