import AllJoyn.ThinClient.Marshal
import AllJoyn.Wire.RoundTrip

/-!
What single calls of the thin client write: a value of a basic type, the
beginning of a container or of a variant, and the length of an array that is
closed.
-/

namespace AllJoyn.ThinClient

open Lib.Bytes Lib.Result Wire TxMessage List Nat

variable {pos : Nat} {bytes str : List UInt8} {arg : AjArg} {msg : TxMessage}

/-! ### Alignment -/

theorem head_alignment_mem (type : Ty) : type.head.alignment ∈ [1, 2, 4, 8] := by
  cases type with
  | scalar type => cases type <;> decide
  | _ => simp [Ty.head, TypeId.alignment]

theorem padForType_sig (type : Ty) (rest : Signature) {offset : Nat} (hoffset : offset < 2 ^ 32) :
    padForType ((type.sig ++ rest).headD 0) offset = padBytes offset type.head.alignment := by
  have hchar : (type.sig ++ rest).headD 0 = type.head.char := by
    cases type <;> rfl
  have halignment : alignment type.head.char = type.head.alignment :=
    alignment_char (by cases type <;> simp [Ty.head])
  rw [hchar, padForType_eq (by rw [halignment]; exact head_alignment_mem type) hoffset, halignment]

/-- Behind the length of an array only elements of eight bytes need padding. -/
theorem padding_elements {alignment : Nat} (halignment : alignment ∈ [1, 2, 4, 8])
    (hpos : 4 ∣ pos) : padding pos alignment = elemPadding alignment pos := by
  unfold elemPadding
  split
  · subst alignment
    rfl
  · simp only [mem_cons, not_mem_nil, or_false] at halignment
    have hdvd : alignment ∣ 4 := by
      obtain rfl | rfl | rfl | rfl := halignment
      · decide
      · decide
      · decide
      · contradiction
    rw [padding, padBytes_of_dvd (hdvd.trans hpos)]
    rfl

/-! ### Writing -/

/-- The message with more bytes in the buffer. -/
def TxMessage.write (msg : TxMessage) (bytes : List UInt8) : TxMessage :=
  { msg with written := msg.written ++ bytes }

/-- The message with more bytes in the buffer that count for the body. -/
def TxMessage.append (msg : TxMessage) (bytes : List UInt8) : TxMessage :=
  { msg with
    written := msg.written ++ bytes
    bodyBytes := msg.bodyBytes + UInt16.ofNat bytes.length }

@[simp]
theorem TxMessage.append_nil (msg : TxMessage) : msg.append [] = msg := by
  simp [append]

theorem TxMessage.append_append (msg : TxMessage) (first second : List UInt8) :
    (msg.append first).append second = msg.append (first ++ second) := by
  simp [append, UInt16.add_assoc]

theorem TxMessage.write_write (msg : TxMessage) (first second : List UInt8) :
    (msg.write first).write second = msg.write (first ++ second) := by
  simp [write]

/-- There is room for these bytes in the transmit buffer. -/
def TxMessage.HasRoom (msg : TxMessage) (bytes : List UInt8) : Prop :=
  msg.written.length + bytes.length ≤ msg.bufSize.toNat

theorem TxMessage.HasRoom.left {first second : List UInt8} (hroom : msg.HasRoom (first ++ second)) :
    msg.HasRoom first := by
  unfold TxMessage.HasRoom at *
  rw [length_append] at hroom
  omega

theorem TxMessage.HasRoom.right {msg : TxMessage} {first second : List UInt8}
    (hroom : msg.HasRoom (first ++ second)) : (msg.write first).HasRoom second := by
  unfold TxMessage.HasRoom write at *
  rw [length_append] at hroom ⊢
  dsimp only
  omega

theorem TxMessage.HasRoom.offset_lt (hroom : msg.HasRoom bytes) : msg.written.length < 2 ^ 32 := by
  unfold TxMessage.HasRoom at hroom
  have hsize := msg.bufSize.toNat_lt
  omega

variable {data : List UInt8} {pad : Nat}

theorem writeBytes_ok (hroom : msg.HasRoom (List.replicate pad 0 ++ data)) :
    writeBytes msg data pad = .ok (msg.write (List.replicate pad 0 ++ data)) := by
  unfold TxMessage.HasRoom at hroom
  rw [length_append, length_replicate] at hroom
  rw [writeBytes, if_neg (by omega)]
  rfl

theorem writePad_ok (hroom : msg.HasRoom (List.replicate pad 0)) :
    writeBytes msg [] pad = .ok (msg.write (List.replicate pad 0)) := by
  rw [← List.append_nil (List.replicate pad 0)] at hroom
  rw [writeBytes_ok hroom, List.append_nil]

theorem writeBytes_padded (type : Ty) (sig : Signature) (hpos : msg.written.length = pos)
    (hroom : msg.HasRoom (padding pos type.head.alignment ++ data)) :
    writeBytes msg data (padForType ((type.sig ++ sig).headD 0) pos) =
      .ok (msg.write (padding pos type.head.alignment ++ data)) := by
  rw [padForType_sig type sig (hpos ▸ hroom.offset_lt)]
  exact writeBytes_ok hroom

section Marshal

variable {host : Host} {msg : TxMessage} {rest : Signature}

theorem write_length (hpos : msg.written.length = pos) (bytes : List UInt8) :
    (msg.write bytes).written.length = pos + bytes.length := by
  rw [write, length_append, hpos]

variable {type : ScalarType}

theorem marshal_scalar {value : Nat} (hpos : msg.written.length = pos)
    (hroom : msg.HasRoom (padding pos type.size ++ wordBytes host.swap type.size value)) :
    marshal host msg (type.char :: rest)
        (initArg type.char (wordBytes host.swap type.size value)) =
      .ok (msg.write (padding pos type.size ++ wordBytes host.swap type.size value), rest,
        initArg type.char (wordBytes host.swap type.size value)) := by
  have hscalar : isScalarType type.char = true := by cases type <;> decide
  have hsize : alignment type.char = type.size := by cases type <;> rfl
  have htake : (wordBytes host.swap type.size value).take type.size =
      wordBytes host.swap type.size value := take_of_length_le (by simp)
  have hwrite : writeBytes msg _ (padForType type.char pos) = _ :=
    writeBytes_padded (.scalar type) rest hpos hroom
  unfold marshal
  simp only [initArg, hscalar, headD_cons, hpos, hsize, htake, ne_eq]
  rw [hwrite]
  rfl

theorem marshal_scalars {values : List (Fin type.range)} (hpos : msg.written.length = pos)
    (hroom : msg.HasRoom (padding pos 4 ++ (wordBytes host.swap 4 (type.size * values.length) ++
      (elemPadding type.size (align pos 4 + 4) ++ scalarsEncoding host.swap values)))) :
    ∃ arg, marshal host msg (TypeId.array.char :: type.char :: rest)
        (ajInitArg type.char true (scalarsEncoding host.swap values) (type.size * values.length)) =
      .ok (msg.write (padding pos 4 ++ (wordBytes host.swap 4 (type.size * values.length) ++
        (elemPadding type.size (align pos 4 + 4) ++ scalarsEncoding host.swap values))), rest,
        arg) := by
  have hscalar : isScalarType type.char = true := by cases type <;> decide
  have hlen : type.size * values.length % 2 ^ 16 = type.size * values.length := by
    have hsize := msg.bufSize.toNat_lt
    unfold TxMessage.HasRoom at hroom
    simp only [length_append, scalarsEncoding_length] at hroom
    exact mod_eq_of_lt (by omega)
  have hpad : elemPadding type.size (align pos 4 + 4) = padding (align pos 4 + 4) type.size :=
    (padding_elements (head_alignment_mem (.scalar type))
      (Nat.dvd_add (dvd_align pos 4 (by decide)) (dvd_refl 4))).symm
  rw [hpad, ← append_assoc] at hroom
  have hoffset := write_length hpos (padding pos 4 ++
    wordBytes host.swap 4 (type.size * values.length))
  rw [length_append, padding_length, wordBytes_length] at hoffset
  have hlength : writeBytes msg _ (padForType TypeId.array.char pos) =
      .ok (msg.write (padding pos 4 ++ wordBytes host.swap 4 (type.size * values.length))) :=
    writeBytes_padded (.array (.scalar type)) rest hpos hroom.left
  have hvalues : writeBytes _ _ (padForType type.char _) = _ :=
    writeBytes_padded (.scalar type) rest hoffset hroom.right
  have htake : (scalarsEncoding host.swap values).take (type.size * values.length) =
      scalarsEncoding host.swap values :=
    take_of_length_le (by rw [scalarsEncoding_length])
  refine ⟨ajInitArg type.char true (scalarsEncoding host.swap values)
    (type.size * values.length), ?_⟩
  unfold marshal
  simp only [ajInitArg, hscalar, headD_cons, drop_succ_cons, drop_zero, hpos, hlen,
    htake, ne_eq]
  rw [hlength, ok_bind, hoffset, hvalues, write_write, hpad, append_assoc]
  rfl

/-! ### Strings and signatures -/

variable {val : List UInt8} {len : Nat}

/-- The length that `Marshal` finds for a string argument, and the characters
it copies. -/
theorem text_length (typeId : UInt8) (htext : IsText str val len) (hstr : str.length < 2 ^ 16) :
    (ajInitArg typeId false val len).textLen = str.length ∧ val.take str.length = str := by
  unfold AjArg.textLen ajInitArg
  obtain ⟨rfl, rfl | ⟨rfl, hnonzero⟩⟩ := htext
  · refine ⟨?_, take_left⟩
    rw [mod_eq_of_lt hstr]
    split
    · rfl
    · have hempty : str = [] := length_eq_zero_iff.mp (not_not.mp ‹_›)
      subst hempty
      rfl
  · refine ⟨?_, take_left⟩
    rw [zero_mod, if_neg (not_not.mpr rfl), cString_append_zero hnonzero]

theorem write_text (hroom : msg.HasRoom (str ++ [0])) :
    writeBytes msg str 0 = .ok (msg.write str) ∧
      writeBytes (msg.write str) [] 1 = .ok (msg.write (str ++ [0])) := by
  have hnul := hroom.right
  have hchars : msg.HasRoom (List.replicate 0 0 ++ str) := hroom.left
  refine ⟨writeBytes_ok hchars, ?_⟩
  rw [← write_write]
  exact writeBytes_ok hnul

theorem marshal_string {typeId : TypeId} (hid : typeId = .string ∨ typeId = .objectPath)
    (htext : IsText str val len) (hpos : msg.written.length = pos)
    (hroom : msg.HasRoom (padding pos 4 ++ stringEncoding host.swap str)) :
    marshal host msg (typeId.char :: rest) (ajInitArg typeId.char false val len) =
      .ok (msg.write (padding pos 4 ++ stringEncoding host.swap str), rest,
        ajInitArg typeId.char false val len) := by
  have hstr : str.length < 2 ^ 16 := by
    have hsize := msg.bufSize.toNat_lt
    unfold TxMessage.HasRoom stringEncoding at hroom
    simp only [length_append] at hroom
    omega
  obtain ⟨hlen, htake⟩ := text_length typeId.char htext hstr
  rw [stringEncoding, ← append_assoc] at hroom
  have hlength : writeBytes msg (wordBytes host.swap 4 str.length) (padForType typeId.char pos) =
      .ok (msg.write (padding pos 4 ++ wordBytes host.swap 4 str.length)) := by
    obtain rfl | rfl := hid
    · exact writeBytes_padded .string rest hpos hroom.left
    · exact writeBytes_padded .objectPath rest hpos hroom.left
  obtain ⟨hchars, hnul⟩ := write_text hroom.right
  have hkind : isScalarType typeId.char = false ∧ isStringOrVariant typeId.char = true ∧
      alignment typeId.char = 4 ∧ typeId.char ≠ TypeId.variant.char := by
    obtain rfl | rfl := hid <;> decide
  obtain ⟨hscalar, hstring, halignment, hvariant⟩ := hkind
  unfold marshal marshalText
  rw [hlen]
  simp only [ajInitArg, hscalar, hstring, halignment, hvariant, htake, hpos, headD_cons, ne_eq]
  rw [hlength, ok_bind, hchars, ok_bind, hnul, write_write,
    append_assoc]
  rfl

theorem marshal_signature {sig : List UInt8}
    (harg : arg.typeId = TypeId.signature.char ∨ arg.typeId = TypeId.variant.char)
    (hlen : arg.textLen = sig.length) (htake : arg.val.take sig.length = sig)
    (hshort : sig.length ≤ 255) (hroom : msg.HasRoom (signatureBytes sig)) :
    marshal host msg (arg.typeId :: rest) arg =
      .ok ({ msg.write (signatureBytes sig) with
        varOffset := if arg.typeId = TypeId.variant.char then (sig.length + 1) % 256
          else msg.varOffset }, rest, arg) := by
  have hroom' : msg.HasRoom ([UInt8.ofNat sig.length] ++ (sig ++ [0])) := hroom
  have hkind : isScalarType arg.typeId = false ∧ isStringOrVariant arg.typeId = true ∧
      alignment arg.typeId = 1 := by
    obtain h | h := harg <;> rw [h] <;> decide
  obtain ⟨hscalar, hstring, halignment⟩ := hkind
  have hpad : padForType arg.typeId msg.written.length = 0 := by
    rw [padForType_eq (by rw [halignment]; decide) hroom.offset_lt, halignment, padBytes_one]
  have hlength : writeBytes msg [UInt8.ofNat sig.length] 0 =
      .ok (msg.write [UInt8.ofNat sig.length]) := writeBytes_ok hroom'.left
  obtain ⟨hchars, hnul⟩ := write_text hroom'.right
  unfold marshal marshalText
  simp only [hlen, hscalar, hstring, halignment, htake, hpad, headD_cons, Bool.false_eq_true, if_false, if_true, ne_eq,
    not_true_eq_false, if_neg (Nat.not_lt.mpr hshort)]
  rw [hlength, ok_bind, hchars, ok_bind, hnul, write_write]
  split <;> rfl

/-! ### Containers -/

theorem marshal_struct {type : Ty} (htype : type.head = .structOpen ∨ type.head = .dictEntryOpen)
    (hlength : type.sig.length ≤ 255) (hpos : msg.written.length = pos)
    (hroom : msg.HasRoom (padding pos 8)) :
    marshal host msg (type.sig ++ rest) (initArg type.head.char []) =
      .ok (msg.write (padding pos 8), rest,
        { initArg type.head.char [] with sigPtr := (type.sig ++ rest).drop 1 }) := by
  have hhead : (type.sig ++ rest).headD 0 = type.head.char := by cases type <;> rfl
  have halignment : type.head.alignment = 8 := by
    obtain h | h := htype <;> rw [h] <;> rfl
  have hpad : padForType type.head.char pos = padBytes pos 8 := by
    rw [← hhead, padForType_sig type rest (hpos ▸ hroom.offset_lt), halignment]
  have hsmall : padBytes pos 8 % 256 = padBytes pos 8 := by
    unfold padBytes
    omega
  have hkind : isScalarType type.head.char = false ∧ isStringOrVariant type.head.char = false ∧
      isContainerType type.head.char = true ∧ type.head.char ≠ TypeId.array.char := by
    obtain h | h := htype <;> rw [h] <;> decide
  obtain ⟨hscalar, hstring, hcontainer, harray⟩ := hkind
  have hwrite : writeBytes msg [] (padBytes pos 8) = .ok (msg.write (padding pos 8)) :=
    writePad_ok hroom
  unfold marshal marshalContainer
  simp only [initArg, hhead, hpos, hpad, hsmall, hscalar, hstring, hcontainer, harray,
    completeTypeSigLen_sig rest hlength, drop_left,
    ne_eq]
  rw [hwrite]
  rfl

theorem marshal_array {elemType : Ty} (hlength : elemType.sig.length < 255)
    (hpos : msg.written.length = pos) (hroom : msg.HasRoom (padding pos 4 ++ (List.replicate 4 0 ++
      elemPadding elemType.head.alignment (align pos 4 + 4)))) :
    marshal host msg (TypeId.array.char :: (elemType.sig ++ rest)) (initArg TypeId.array.char []) =
      .ok (msg.write (padding pos 4 ++ (List.replicate 4 0 ++
        elemPadding elemType.head.alignment (align pos 4 + 4))), rest,
        { initArg TypeId.array.char [] with
          sigPtr := elemType.sig ++ rest
          lenOffset := align pos 4 }) := by
  have hpad : padForType TypeId.array.char pos = padBytes pos 4 :=
    padForType_sig (.array elemType) rest (hpos ▸ hroom.offset_lt)
  have hsmall : padBytes pos 4 % 256 = padBytes pos 4 := by
    unfold padBytes
    omega
  have hscan : completeTypeSigLen (TypeId.array.char :: (elemType.sig ++ rest)) =
      elemType.sig.length + 1 :=
    completeTypeSigLen_sig rest (show (Ty.array elemType).sig.length ≤ 255 from hlength)
  rw [← append_assoc] at hroom
  have hfirst : writeBytes msg [] (padBytes pos 4 + 4) =
      .ok (msg.write (padding pos 4 ++ List.replicate 4 0)) := by
    have hleft := hroom.left
    rw [padding, replicate_append_replicate] at hleft ⊢
    exact writePad_ok hleft
  have hoffset := write_length hpos (padding pos 4 ++ List.replicate 4 0)
  rw [length_append, padding_length, length_replicate, ← Nat.add_assoc, ← align] at hoffset
  have helements : padding (align pos 4 + 4) elemType.head.alignment =
      elemPadding elemType.head.alignment (align pos 4 + 4) :=
    padding_elements (head_alignment_mem elemType)
      (Nat.dvd_add (dvd_align pos 4 (by decide)) (dvd_refl 4))
  have hright := hroom.right
  rw [← helements] at hright
  have helemPad := padForType_sig elemType rest hright.offset_lt
  rw [hoffset] at helemPad
  have hsecond := writePad_ok hright
  have hkind : isScalarType TypeId.array.char = false ∧
      isStringOrVariant TypeId.array.char = false ∧ isContainerType TypeId.array.char = true := by
    decide
  obtain ⟨hscalar, hstring, hcontainer⟩ := hkind
  unfold marshal marshalContainer
  simp only [headD_cons, drop_succ_cons, drop_zero, hpos, hpad, hsmall,
    hscan, drop_left]
  rw [hfirst, ok_bind, hoffset, helemPad, hsecond, write_write, ← padding,
    helements, append_assoc]
  rfl

end Marshal

/-! ### Calls -/

section Advance

variable (msg : TxMessage) (rest : Signature)

@[simp]
theorem advance_varOffset : (msg.advance rest).varOffset = 0 := by
  unfold advance
  split
  · rfl
  · have hzero : msg.varOffset = 0 := not_not.mp ‹_›
    split
    · split <;> exact hzero
    · exact hzero

@[simp]
theorem advance_kept : (msg.advance rest).written = msg.written ∧
    (msg.advance rest).bodyBytes = msg.bodyBytes ∧ (msg.advance rest).bufSize = msg.bufSize := by
  unfold advance
  split
  · exact ⟨rfl, rfl, rfl⟩
  · split
    · split <;> exact ⟨rfl, rfl, rfl⟩
    · exact ⟨rfl, rfl, rfl⟩

end Advance

section Calls

variable {host : Host} {msg : TxMessage} {rest : Signature} {result : AjArg}

theorem ajMarshalArg_ok (varOffset : Nat) (hoffset : msg.sigOffset ≠ 255) (hsig : msg.nextSig ≠ [])
    (hmarshal : marshal host { msg with varOffset := 0 } msg.nextSig arg =
      .ok ({ write { msg with varOffset := 0 } bytes with varOffset := varOffset }, rest,
        result)) :
    ajMarshalArg host msg arg =
      .ok ({ (msg.advance rest).append bytes with varOffset := varOffset }, result) := by
  rw [ajMarshalArg, if_neg hoffset, if_neg fun h => hsig h.2, hmarshal, ok_bind]
  simp [append, write, pure_ok]

theorem ajMarshalArg_plain (hoffset : msg.sigOffset ≠ 255) (hsig : msg.nextSig ≠ [])
    (hmarshal : marshal host { msg with varOffset := 0 } msg.nextSig arg =
      .ok (write { msg with varOffset := 0 } bytes, rest, result)) :
    ajMarshalArg host msg arg = .ok ((msg.advance rest).append bytes, result) := by
  have hstep := ajMarshalArg_ok 0 hoffset hsig hmarshal
  have hsame : ({ (msg.advance rest).append bytes with varOffset := 0 } : TxMessage) =
      (msg.advance rest).append bytes := by
    rw [← advance_varOffset msg rest]
    rfl
  rw [hstep, hsame]

theorem runCalls_cons (msg : TxMessage) (call : Call) (calls : List Call) :
    runCalls host msg (call :: calls) = (call.run host msg).bind fun msg => runCalls host msg calls :=
  foldlM_cons

theorem runCalls_append (msg : TxMessage) (first second : List Call) :
    runCalls host msg (first ++ second) =
      (runCalls host msg first).bind fun msg => runCalls host msg second :=
  foldlM_append

/-! ### Opening containers and variants -/

/-- An open container with nothing but its signature and the place of its
length. -/
def openContainer (typeId : TypeId) (sigPtr : Signature) (lenOffset : Nat) : AjArg :=
  { initArg typeId.char [] with
    sigPtr := sigPtr
    lenOffset := lenOffset }

theorem open_struct {type : Ty} {members : Signature}
    (htype : type.head = .structOpen ∨ type.head = .dictEntryOpen)
    (hsig : type.sig = type.head.char :: members) (hlength : type.sig.length ≤ 255)
    (hnext : msg.nextSig = type.sig ++ rest) (hoffset : msg.sigOffset ≠ 255)
    (hroom : msg.HasRoom (padding msg.written.length 8)) :
    ajMarshalContainer host msg type.head.char =
      .ok { (msg.advance rest).append (padding msg.written.length 8) with
        outer := openContainer type.head (members ++ rest) 0 :: (msg.advance rest).outer } := by
  have hmarshal : marshal host { msg with varOffset := 0 } (type.sig ++ rest)
      (initArg type.head.char []) = _ := marshal_struct htype hlength rfl hroom
  rw [← hnext] at hmarshal
  have hstep := ajMarshalArg_plain hoffset (by rw [hnext, hsig]; simp) hmarshal
  have hdrop : msg.nextSig.drop 1 = members ++ rest := by
    rw [hnext, hsig]
    rfl
  rw [hdrop] at hstep
  rw [ajMarshalContainer, hstep]
  rfl

theorem open_array {elemType : Ty} (hlength : elemType.sig.length < 255)
    (hnext : msg.nextSig = TypeId.array.char :: (elemType.sig ++ rest))
    (hoffset : msg.sigOffset ≠ 255)
    (hroom : msg.HasRoom (padding msg.written.length 4 ++ (List.replicate 4 0 ++
      elemPadding elemType.head.alignment (align msg.written.length 4 + 4)))) :
    ajMarshalContainer host msg TypeId.array.char =
      .ok { (msg.advance rest).append (padding msg.written.length 4 ++ (List.replicate 4 0 ++
          elemPadding elemType.head.alignment (align msg.written.length 4 + 4))) with
        outer := openContainer .array (elemType.sig ++ rest) (align msg.written.length 4) ::
          (msg.advance rest).outer } := by
  have hmarshal : marshal host { msg with varOffset := 0 }
      (TypeId.array.char :: (elemType.sig ++ rest)) (initArg TypeId.array.char []) = _ :=
    marshal_array hlength rfl hroom
  rw [← hnext] at hmarshal
  have hstep := ajMarshalArg_plain hoffset (by rw [hnext]; simp) hmarshal
  rw [ajMarshalContainer, hstep]
  rfl

theorem open_variant {valType : Ty} (hshort : valType.sig.length < 255)
    (hnext : msg.nextSig = TypeId.variant.char :: rest) (hoffset : msg.sigOffset ≠ 255)
    (hroom : msg.HasRoom (signatureBytes valType.sig)) :
    ajMarshalVariant host msg valType.sig =
      .ok { (msg.advance rest).append (signatureBytes valType.sig) with
        varOffset := valType.sig.length + 1 } := by
  have hscan : completeTypeSigLen valType.sig = valType.sig.length := by
    rw [← completeTypeSigLen_sig [] hshort.le, List.append_nil]
  have hlen : (initArg TypeId.variant.char (valType.sig ++ [0])).textLen = valType.sig.length := by
    rw [AjArg.textLen, initArg, if_neg (not_not.mpr rfl), cString_append_zero valType.sig_nonzero]
  have hmarshal : marshal host { msg with varOffset := 0 } (TypeId.variant.char :: rest)
      (initArg TypeId.variant.char (valType.sig ++ [0])) = _ :=
    marshal_signature (.inr rfl) hlen take_left hshort.le hroom
  rw [← hnext] at hmarshal
  have hstep := ajMarshalArg_ok _ hoffset (by rw [hnext]; simp) hmarshal
  rw [mod_eq_of_lt (by omega)] at hstep
  rw [ajMarshalVariant, if_neg (not_not.mpr hscan), hstep]
  rfl

/-! ### Closing containers -/

variable {containers : List AjArg}

theorem close_struct {container : AjArg} (hclosed : container.typeId = TypeId.structOpen.char ∧
        container.sigPtr.headD 0 = TypeId.structClose.char ∨
      container.typeId = TypeId.dictEntryOpen.char ∧
        container.sigPtr.headD 0 = TypeId.dictEntryClose.char) :
    ajMarshalCloseContainer host
        (append { msg with outer := container :: containers } bytes) =
      .ok (append { msg with outer := containers } bytes) := by
  obtain ⟨htype, hsig⟩ | ⟨htype, hsig⟩ := hclosed <;>
    simp only [ajMarshalCloseContainer, append, htype, hsig] <;> rfl

/-- The padding behind a length field is what `AJ_MarshalCloseContainer` takes
it to be. -/
theorem elemPadding_length {alignment lenOffset : Nat} (haligned : 4 ∣ lenOffset) :
    (elemPadding alignment (lenOffset + 4)).length =
      if alignment = 8 ∧ lenOffset &&& 4 = 0 then 4 else 0 := by
  obtain ⟨k, rfl⟩ := haligned
  have hbit : 4 * k &&& 4 = 4 * (k % 2) := by
    rw [← and_one_is_mod, show 4 * k = k <<< 2 by rw [shiftLeft_eq]; omega,
      show 4 = 1 <<< 2 from rfl, ← shiftLeft_and_distrib]
    omega
  rw [elemPadding]
  by_cases height : alignment = 8
  · rw [if_pos height, padding_length, padBytes]
    split <;> omega
  · rw [if_neg height, if_neg fun h => height h.1]
    rfl

theorem arrayLen_eq {count : Nat} (haligned : 4 ∣ arg.lenOffset)
    (hsize : msg.written.length < 2 ^ 16) (hlength : msg.written.length = arg.lenOffset + 4 +
      (elemPadding (alignment (arg.sigPtr.headD 0)) (arg.lenOffset + 4)).length + count) :
    (arrayLen msg arg).toNat = count := by
  rw [elemPadding_length haligned] at hlength
  have hlen : UInt16.ofNat (msg.written.length - arg.lenOffset) - 4 =
      UInt16.ofNat (msg.written.length - arg.lenOffset - 4) := by
    rw [show msg.written.length - arg.lenOffset = msg.written.length - arg.lenOffset - 4 + 4 by omega]
    simp
  unfold arrayLen
  rw [hlen]
  by_cases hpadded : alignment (arg.sigPtr.headD 0) = 8 ∧ arg.lenOffset &&& 4 = 0
  · rw [if_pos hpadded] at hlength
    have hcount : msg.written.length - arg.lenOffset - 4 = count + 4 := by omega
    have hne : UInt16.ofNat (count + 4) ≠ 0 := by
      intro hzero
      have := congrArg UInt16.toNat hzero
      rw [UInt16.toNat_ofNat_of_lt' (show count + 4 < 2 ^ 16 by omega)] at this
      simp at this
    rw [hcount, if_pos ⟨hpadded.1, hpadded.2, hne⟩, UInt16.ofNat_add]
    simp only [UInt16.reduceOfNat, UInt16.add_sub_cancel]
    exact UInt16.toNat_ofNat_of_lt' (show count < 2 ^ 16 by omega)
  · rw [if_neg hpadded] at hlength
    have hcount : msg.written.length - arg.lenOffset - 4 = count := by omega
    rw [hcount, if_neg fun h => hpadded ⟨h.1, h.2.1⟩]
    exact UInt16.toNat_ofNat_of_lt' (show count < 2 ^ 16 by omega)

theorem close_array (elemType : Ty) (front bytes : List UInt8) (haligned : 4 ∣ front.length)
    (houter : msg.outer =
      openContainer .array (elemType.sig ++ rest) front.length :: containers)
    (hwritten : msg.written = front ++ (List.replicate 4 0 ++
      (elemPadding elemType.head.alignment (front.length + 4) ++ bytes)))
    (hsize : msg.written.length < 2 ^ 16) :
    ajMarshalCloseContainer host msg =
      .ok { msg with
        outer := containers
        written := front ++ (wordBytes host.swap 4 bytes.length ++
          (elemPadding elemType.head.alignment (front.length + 4) ++ bytes)) } := by
  have halignment : alignment ((elemType.sig ++ rest).headD 0) = elemType.head.alignment := by
    have hchar : (elemType.sig ++ rest).headD 0 = elemType.head.char := by cases elemType <;> rfl
    rw [hchar]
    exact alignment_char (by cases elemType <;> simp [Ty.head])
  have hcount : (arrayLen { msg with outer := containers }
      (openContainer .array (elemType.sig ++ rest) front.length)).toNat = bytes.length := by
    refine arrayLen_eq haligned hsize ?_
    change msg.written.length = front.length + 4 + (elemPadding (alignment
      ((elemType.sig ++ rest).headD 0)) (front.length + 4)).length + bytes.length
    rw [halignment, hwritten]
    simp only [length_append, length_replicate]
    omega
  rw [ajMarshalCloseContainer, houter]
  dsimp only
  rw [hcount]
  have hpatch := overwrite_middle front (List.replicate 4 0)
    (elemPadding elemType.head.alignment (front.length + 4) ++ bytes)
    (wordBytes host.swap 4 bytes.length) (by simp)
  rw [← hwritten] at hpatch
  change Except.ok { msg with
    outer := containers
    written := overwrite msg.written front.length (wordBytes host.swap 4 bytes.length) } = _
  rw [hpatch]

end Calls

end AllJoyn.ThinClient
