import AllJoyn.Message.Unmarshal
import AllJoyn.Wire.GetSize

/-!
Building a message (`Message_Gen.cc`): the header fields and the room that is
computed for them, `_Message::ReMarshal`, which writes the header of a message
anew, and `_Message::MarshalMessage`.
-/

namespace AllJoyn.Msg

open Lib.Bytes Lib.Result Wire FieldId

variable {field : MsgArg} {halt : Halt} {env : MarshalEnv} {fields : HeaderFields}

/-- How a function may end besides success: with a status, in an assertion, or
by copying bytes from a NULL pointer. -/
inductive Halt where
  | status (status : QStatus)
  | assertFailed
  | nullRead
  deriving DecidableEq, Repr

/-- `FieldTypeMapping` of `Message_Gen.cc`. -/
def FieldId.code : FieldId → UInt8
  | .path => 1
  | .interface => 2
  | .member => 3
  | .errorName => 4
  | .replySerial => 5
  | .destination => 6
  | .sender => 7
  | .signature => 8
  | .handles => 9
  | .timestamp => 16
  | .timeToLive => 17
  | .compressionToken => 18
  | .sessionId => 19

/-! ### Header fields -/

section HeaderFields

variable (env : MarshalEnv) (fields : HeaderFields)

/-- The signature and the value of a field. The text of a field is copied with
its terminator, and the status of `MarshalArgs` is dropped. -/
def fieldBytes (pos : Nat) : MsgArg → Except Halt (List UInt8)
  | .signature none | .objectPath none | .string none => .error .nullRead
  | .signature (some sig) => .ok ([1, TypeId.signature.char, 0] ++ signatureBytes sig)
  | .scalar .uint32 value => .ok ([1, ScalarType.uint32.char, 0] ++ env.word 4 value)
  | .objectPath (some str) =>
    .ok ([1, TypeId.objectPath.char, 0] ++ env.stringBytes (some str))
  | .string (some str) => .ok ([1, TypeId.string.char, 0] ++ env.stringBytes (some str))
  | field => .ok ((marshalArg env (.variant field) pos).toOption.getD [])

/-- The loop of `MarshalHeaderFields` and the padding behind the fields. -/
def marshalFields : List FieldId → Nat → Except Halt (List UInt8)
  | [], pos => .ok (padding pos 8)
  | id :: ids, pos =>
    if fields.has id then do
      let start := align pos 8
      let value ← fieldBytes env (start + 1) (fields.field id)
      let rest ← marshalFields ids (start + 1 + value.length)
      return padding pos 8 ++ id.code :: (value ++ rest)
    else marshalFields ids pos

def marshalHeaderFields : Except Halt (List UInt8) :=
  marshalFields env fields FieldId.all headerSize

/-- The loop of `ComputeHeaderLen`. -/
def addField (hdrLen : Nat) (id : FieldId) : Nat :=
  if fields.has id then roundUp8 hdrLen + getSize env.junk [fields.field id] 4 else hdrLen

/-- The length that `ComputeHeaderLen` stores in the header. -/
def fieldsLen : Nat := FieldId.all.foldl (addField env fields) 0

def computeHeaderLen : Nat := roundUp8 (headerSize + fieldsLen env fields)

end HeaderFields

/-- The values that header fields have. -/
inductive FieldValue : MsgArg → Prop
  | string (str : Option (List UInt8)) : FieldValue (.string str)
  | objectPath (str : Option (List UInt8)) : FieldValue (.objectPath str)
  | signature (sig : Option (List UInt8)) : FieldValue (.signature sig)
  | uint32 (value : Fin ScalarType.uint32.range) : FieldValue (.scalar .uint32 value)
  | uint16 (value : Fin ScalarType.uint16.range) : FieldValue (.scalar .uint16 value)

theorem FieldId.type_cases (id : FieldId) :
    id.type = .string ∨ id.type = .objectPath ∨ id.type = .signature ∨
      id.type = .scalar .uint32 ∨ id.type = .scalar .uint16 := by
  cases id <;> simp [type]

variable {id : FieldId}

theorem fieldValue_of_typeId (htype : field.typeId = (id.type, Option.none)) :
    FieldValue field := by
  have hid : field.typeId.1 = id.type := congrArg Prod.fst htype
  have hcases := hid ▸ id.type_cases
  cases field with
  | string str => exact .string str
  | objectPath str => exact .objectPath str
  | signature sig => exact .signature sig
  | scalar type value =>
    simp only [MsgArg.typeId, TypeId.scalar.injEq, reduceCtorEq, false_or] at hcases
    rcases hcases with rfl | rfl
    · exact .uint32 value
    · exact .uint16 value
  | _ => simp [MsgArg.typeId] at hcases

theorem HeaderFields.fieldValue (hhas : fields.has id = true) : FieldValue (fields.field id) := by
  rcases fields.typed id with hinvalid | htype
  · simp [HeaderFields.has, hinvalid, MsgArg.typeId] at hhas
  · exact fieldValue_of_typeId htype

theorem fieldBytes_size {start : Nat} {value : List UInt8} (hstart : 8 ∣ start)
    (hfield : FieldValue field) (hvalue : fieldBytes env (start + 1) field = .ok value) :
    getSize env.junk [field] 4 = 1 + value.length := by
  cases hfield with
  | string str | objectPath str =>
    cases str with
    | none => cases hvalue
    | some str =>
      cases hvalue
      rw [List.length_append, stringBytes_length]
      change 8 + str.length + 1 = 1 + (3 + (4 + str.length + 1))
      omega
  | signature sig =>
    cases sig with
    | none => cases hvalue
    | some sig =>
      cases hvalue
      rw [List.length_append, signatureBytes_length]
      change 4 + (1 + sig.length + 1) = 1 + (3 + (1 + sig.length + 1))
      omega
  | uint32 value =>
    cases hvalue
    rw [List.length_append, word_length]
    rfl
  | uint16 value =>
    -- the value lies four bytes behind the number of the field
    have halign : padBytes (start + 4) 2 = 0 := by
      unfold padBytes
      omega
    cases hvalue
    change 6 = 1 + (padding (start + 1) 1 ++ ([1, ScalarType.uint16.char, 0] ++
      (padding (align (start + 1) 1 + 3) 2 ++ env.word 2 value))).length
    rw [align_one]
    simp [halign, padBytes_one, word_length]

variable (ids : List FieldId) {bytes : List UInt8}

theorem marshalFields_size (hdrLen : Nat)
    (hbytes : marshalFields env fields ids (headerSize + hdrLen) = .ok bytes) :
    headerSize + hdrLen + bytes.length =
      roundUp8 (headerSize + ids.foldl (addField env fields) hdrLen) := by
  induction ids generalizing hdrLen bytes with
  | nil =>
    cases hbytes
    rw [padding_length, ← align, align_eight]
    rfl
  | cons id ids ih =>
    rw [marshalFields] at hbytes
    rw [List.foldl_cons, addField]
    split at hbytes
    · next hhas =>
        obtain ⟨value, hvalue, hnext⟩ := bind_eq_ok.mp hbytes
        obtain ⟨rest, hrest, hpure⟩ := bind_eq_ok.mp hnext
        cases hpure
        have hstart : align (headerSize + hdrLen) 8 = headerSize + roundUp8 hdrLen := by
          rw [align_eight]
          unfold roundUp8 headerSize
          omega
        have hsize := fieldBytes_size (dvd_align _ 8 (by decide)) (fields.fieldValue hhas) hvalue
        rw [hstart, Nat.add_assoc, Nat.add_assoc, ← hsize] at hrest
        have hlater := ih (roundUp8 hdrLen + getSize env.junk [fields.field id] 4) hrest
        rw [if_pos hhas, List.length_append, padding_length, ← Nat.add_assoc, ← align, List.length_cons, List.length_append]
        omega
    · next hhas =>
        rw [if_neg hhas]
        exact ih hdrLen hbytes

/-- `ComputeHeaderLen` is the length of the header with its padding. -/
theorem marshalHeaderFields_size (hbytes : marshalHeaderFields env fields = .ok bytes) :
    headerSize + bytes.length = computeHeaderLen env fields :=
  marshalFields_size all 0 hbytes

variable {pos : Nat}

theorem fieldBytes_halt (hfield : FieldValue field) (hhalt : fieldBytes env pos field = .error halt) :
    halt = .nullRead := by
  cases hfield with
  | string str | objectPath str | signature str =>
    cases str <;> cases hhalt
    rfl
  | uint32 value | uint16 value => cases hhalt

/-- Only a text that is missing keeps the fields from being written. -/
theorem marshalFields_halt (pos : Nat)
    (hhalt : marshalFields env fields ids pos = .error halt) : halt = .nullRead := by
  induction ids generalizing pos with
  | nil => cases hhalt
  | cons id ids ih =>
    rw [marshalFields] at hhalt
    split at hhalt
    · next hhas =>
        rcases bind_eq_error.mp hhalt with hvalue | ⟨value, -, hnext⟩
        · exact fieldBytes_halt (fields.fieldValue hhas) hvalue
        rcases bind_eq_error.mp hnext with hrest | ⟨rest, -, hpure⟩
        · exact ih _ hrest
        · cases hpure
    · exact ih pos hhalt

/-- A text whose pointer is NULL. -/
def MsgArg.isNull : MsgArg → Bool
  | .string none | .objectPath none | .signature none => true
  | _ => false

theorem fieldBytes_ok_iff (hfield : FieldValue field) :
    (∃ value, fieldBytes env pos field = .ok value) ↔ MsgArg.isNull field = false := by
  cases hfield with
  | string str | objectPath str | signature str =>
    cases str <;> simp [fieldBytes, MsgArg.isNull]
  | uint32 value | uint16 value => simp [fieldBytes, MsgArg.isNull]

theorem marshalFields_ok_iff (pos : Nat) :
    (∃ bytes, marshalFields env fields ids pos = .ok bytes) ↔
      ∀ id ∈ ids, MsgArg.isNull (fields.field id) = false := by
  induction ids generalizing pos with
  | nil => simp [marshalFields]
  | cons id ids ih =>
    rw [marshalFields, List.forall_mem_cons]
    split
    · next hhas =>
        have hfield :
            (∃ value, fieldBytes env (align pos 8 + 1) (fields.field id) = .ok value) ↔ _ :=
          fieldBytes_ok_iff (fields.fieldValue hhas)
        rw [← hfield]
        simp only [bind_eq_ok]
        constructor
        · rintro ⟨bytes, value, hvalue, rest, hrest, -⟩
          exact ⟨⟨value, hvalue⟩, (ih _).mp ⟨rest, hrest⟩⟩
        · rintro ⟨⟨value, hvalue⟩, hids⟩
          obtain ⟨rest, hrest⟩ := (ih (align pos 8 + 1 + value.length)).mpr hids
          exact ⟨_, value, hvalue, rest, hrest, rfl⟩
    · next hhas =>
        have habsent : MsgArg.isNull (fields.field id) = false := by
          unfold HeaderFields.has at hhas
          cases hfield : fields.field id <;> simp_all [MsgArg.typeId, MsgArg.isNull]
        rw [ih pos]
        exact ⟨fun hids => ⟨habsent, hids⟩, And.right⟩

/-! ### Writing the header anew -/

/-- A message in its buffer: the header as the host keeps it, the fields, and
the bytes from the start of the buffer to the end of the body. -/
structure Built where
  msgHeader : MessageHeader
  fields : HeaderFields
  bytes : List UInt8

section ReMarshal

variable (host : ByteOrder) (env : MarshalEnv)

/-- The fields that `ReMarshal` sets: with a sender the destination too, which
may be NULL. -/
def HeaderFields.readdress (fields : HeaderFields) (senderName destination : Option (List UInt8)) :
    HeaderFields :=
  match senderName with
  | .none => fields
  | .some name =>
    (fields.set .sender (.string (some name)) (.inr rfl)).set .destination (.string destination)
      (.inr rfl)

/-- `_Message::ReMarshal`. The body is copied from memory. -/
def reMarshal (msgHeader : MessageHeader) (fields : HeaderFields)
    (senderName destination : Option (List UInt8)) (body : Nat → UInt8) : Except Halt Built := do
  let fields := fields.readdress senderName destination
  let msgHeader := { msgHeader with headerLen := UInt32.ofNat (fieldsLen env fields) }
  let bodyLen := msgHeader.bodyLen.toNat
  let bufSize := headerSize + roundUp8 (roundUp8 msgHeader.headerLen.toNat + bodyLen) + 8
  let value ← marshalHeaderFields env fields
  if (headerSize + value.length) % 8 ≠ 0 then .error .assertFailed
  else if headerSize + value.length + bodyLen ≥ bufSize then .error .assertFailed
  else return ⟨msgHeader, fields, (msgHeader.convert host).bytes host ++ (value ++ read body 0 bodyLen)⟩

end ReMarshal

/-! ### Building a message -/

/-- `ALLJOYN_FLAG_AUTO_START`. -/
def autoStart : UInt8 := 2

/-- What `MarshalMessage` finds around the message: the byte orders, the
contents of the buffer in which a signature is composed, the table of handles
once the arguments are marshalled, and the next serial number. -/
structure SendEnv where
  host : ByteOrder
  outEndian : ByteOrder
  junk : Nat → UInt8
  handleIndex : Nat → Except QStatus Nat
  numHandles : Fin ScalarType.uint32.range
  serialNum : UInt32

def SendEnv.marshalEnv (env : SendEnv) : MarshalEnv := ⟨env.junk, env.outEndian.swap, env.handleIndex⟩

/-- The parameters of `MarshalMessage`. The number of arguments is a byte. -/
structure Request where
  expectedSignature : List UInt8
  sender : List UInt8
  destination : List UInt8
  msgType : UInt8
  args : List MsgArg
  flags : UInt8
  sessionId : UInt32
  few : args.length < 256

mutual
/-- The argument holds a handle, at any depth. -/
def MsgArg.hasHandle : MsgArg → Bool
  | .handle _ => true
  | .variant val => MsgArg.hasHandle val
  | .struct members => anyHandle members
  | .dictEntry key val => MsgArg.hasHandle key || MsgArg.hasHandle val
  | .array _ elements => anyHandle elements
  | _ => false

def anyHandle : List MsgArg → Bool
  | [] => false
  | arg :: args => MsgArg.hasHandle arg || anyHandle args
end

/-- A name that is empty is left out. -/
def HeaderFields.setName (fields : HeaderFields) (id : FieldId) (hid : id.type = .string)
    (name : List UInt8) : HeaderFields :=
  if name.isEmpty then fields.set id .invalid (HeaderFields.none.typed id)
  else fields.set id (.string (some name)) (.inr (by rw [hid]; rfl))

def HeaderFields.setSignature (fields : HeaderFields) (sig : Signature) : HeaderFields :=
  if sig.isEmpty then fields.set .signature .invalid (.inl rfl)
  else fields.set .signature (.signature (some sig)) (.inr rfl)

def HeaderFields.setSessionId (fields : HeaderFields) (sessionId : UInt32) : HeaderFields :=
  if sessionId = 0 then fields.set .sessionId .invalid (.inl rfl)
  else fields.set .sessionId (.scalar .uint32 ⟨sessionId.toNat, sessionId.toNat_lt⟩) (.inr rfl)

def HeaderFields.setHandles (fields : HeaderFields) (numHandles : Fin ScalarType.uint32.range) :
    HeaderFields :=
  fields.set .handles (.scalar .uint32 numHandles) (.inr rfl)

section MarshalMessage

variable (env : SendEnv) (request : Request)

/-- The fields of the message, if the arguments have the expected signature. -/
def requestFields (fields : HeaderFields) : Except Halt HeaderFields :=
  match makeSignature env.junk request.args with
  | (.ok, sig) =>
    if request.expectedSignature ≠ cString sig then .error (.status .busUnexpectedSignature)
    else
      .ok ((((fields.setName .destination rfl request.destination).setName .sender rfl
        request.sender).setSignature sig).setSessionId request.sessionId)
  | (status, _) => .error (.status status)

/-- The header with the flags as the host keeps them. -/
def requestHeader (argsLen headerLen : Nat) : MessageHeader :=
  ⟨env.outEndian.char, request.msgType, request.flags, 1, UInt32.ofNat argsLen, env.serialNum,
    UInt32.ofNat headerLen⟩

/-- The header is copied to the buffer with the other `AUTO_START` flag. -/
def MessageHeader.onTheWire (header : MessageHeader) : MessageHeader :=
  { header with flags := header.flags ^^^ autoStart }

/-- The part of `MarshalMessage` behind the header fields, `front` being the
bytes so far. With handles the header is written again. -/
def marshalRequestBody (hasHandles : Bool) (header : MessageHeader) (fields : HeaderFields)
    (front : List UInt8) (argsLen : Nat) : Except Halt Built := do
  let body ← (marshalArgs env.marshalEnv request.args front.length).mapError .status
  if hasHandles || anyHandle request.args then do
    let built ← reMarshal env.host env.marshalEnv header (fields.setHandles env.numHandles) none
      none fun i => body.getD i (env.junk i)
    if header.bodyLen.toNat ≠ argsLen then .error .assertFailed else return built
  else if body.length ≠ argsLen then .error .assertFailed
  else return ⟨header, fields, front ++ body⟩

/-- `_Message::MarshalMessage` on a message that may already have header fields
and a table of handles. -/
def marshalMessage (fields : HeaderFields) (hasHandles : Bool) : Except Halt Built := do
  let fields ← requestFields env request fields
  let argsLen := getSize env.junk request.args 0
  let hdrLen := computeHeaderLen env.marshalEnv fields
  if hdrLen + argsLen > maxPacketLen then .error (.status .busBadBodyLen)
  else do
    let header := requestHeader env request argsLen (fieldsLen env.marshalEnv fields)
    let value ← marshalHeaderFields env.marshalEnv fields
    let front := (header.onTheWire.convert env.host).bytes env.host ++ value
    if front.length ≠ hdrLen then .error .assertFailed
    else if argsLen = 0 then return ⟨header, fields, front⟩
    else marshalRequestBody env request hasHandles header fields front argsLen

end MarshalMessage

/-! ### The assertions on sizes -/

theorem roundUp8_mod (n : Nat) : roundUp8 n % 8 = 0 := by
  unfold roundUp8
  omega

theorem marshalHeaderFields_halt (hhalt : marshalHeaderFields env fields = .error halt) :
    halt = .nullRead :=
  marshalFields_halt all headerSize hhalt

variable {header : MessageHeader}

/-- The assertions of `ReMarshal` hold for headers of any reasonable length. -/
theorem reMarshal_asserts {host : ByteOrder} {senderName destination : Option (List UInt8)}
    {body : Nat → UInt8} (hlen : fieldsLen env (fields.readdress senderName destination) < 2 ^ 32) :
    reMarshal host env header fields senderName destination body ≠ .error .assertFailed := by
  intro hfailed
  rcases bind_eq_error.mp hfailed with hvalue | ⟨value, hvalue, hnext⟩
  · cases marshalHeaderFields_halt hvalue
  have hsize := marshalHeaderFields_size hvalue
  have hround := roundUp8_mod (headerSize + fieldsLen env (fields.readdress senderName destination))
  rw [computeHeaderLen] at hsize
  split at hnext
  · next hmod => exact hmod (hsize ▸ hround)
  split at hnext
  · next hbuf =>
      rw [UInt32.toNat_ofNat_of_lt' hlen, hsize] at hbuf
      revert hbuf
      unfold roundUp8 headerSize
      omega
  · cases hnext

variable (env : MarshalEnv)

/-- Fields that differ in one number have lengths that differ little. -/
theorem foldl_addField_le {fields fields' : HeaderFields} (ids : List FieldId)
    (hsame : ∀ id ∈ ids, fields'.field id = fields.field id) {first second more : Nat}
    (hmore : 8 ∣ more) (hle : first ≤ second + more) :
    ids.foldl (addField env fields') first ≤ ids.foldl (addField env fields) second + more := by
  induction ids generalizing first second with
  | nil => exact hle
  | cons id ids ih =>
    rw [List.forall_mem_cons] at hsame
    apply ih hsame.2
    unfold addField HeaderFields.has
    rw [hsame.1]
    split
    · obtain ⟨count, rfl⟩ := hmore
      unfold roundUp8
      omega
    · exact hle

theorem le_addField (fields : HeaderFields) (hdrLen : Nat) (id : FieldId) :
    hdrLen ≤ addField env fields hdrLen id := by
  unfold addField roundUp8
  split
  · omega
  · exact le_rfl

theorem fieldsLen_handles_le (fields : HeaderFields)
    (numHandles : Fin ScalarType.uint32.range) :
    fieldsLen env (fields.setHandles numHandles) ≤ fieldsLen env fields + 16 := by
  have hother : ∀ ids : List FieldId, handles ∉ ids → ∀ id ∈ ids,
      (fields.setHandles numHandles).field id = fields.field id :=
    fun ids hids id hid => fields.set_other _ (ne_of_mem_of_not_mem hid hids)
  have hhandles : ∀ hdrLen, addField env (fields.setHandles numHandles) hdrLen .handles =
      roundUp8 hdrLen + 8 := by
    intro hdrLen
    rfl
  have hsplit : all = all.take 8 ++ .handles :: all.drop 9 := rfl
  have hbefore := foldl_addField_le env (all.take 8) (hother _ (by decide)) (dvd_zero 8)
    (Nat.le_add_right 0 0)
  unfold fieldsLen
  rw [hsplit, List.foldl_append, List.foldl_append, List.foldl_cons]
  refine foldl_addField_le env _ (hother _ (by decide)) (by decide) ?_
  have hle := le_addField env fields ((all.take 8).foldl (addField env fields) 0) .handles
  rw [hhandles, roundUp8]
  omega

theorem mapError_eq_error {A : Type} {result : Except QStatus A}
    (herror : result.mapError Halt.status = .error halt) : ∃ status, halt = .status status := by
  cases result with
  | error status => exact ⟨status, by cases herror; rfl⟩
  | ok a => cases herror

variable {request : Request} {env : SendEnv}

theorem requestFields_halt (hhalt : requestFields env request fields = .error halt) :
    ∃ status, halt = .status status := by
  unfold requestFields at hhalt
  split at hhalt
  · split at hhalt
    · cases hhalt
      exact ⟨_, rfl⟩
    · cases hhalt
  · cases hhalt
    exact ⟨_, rfl⟩

theorem marshalRequestBody_asserts {hasHandles : Bool} {front : List UInt8} {argsLen : Nat}
    (hwell : AllWellFormed request.args) (hfront : front.length % 8 = 0)
    (hlen : fieldsLen env.marshalEnv fields + argsLen ≤ maxPacketLen)
    (hargs : argsLen = getSize env.junk request.args 0)
    (hbodyLen : header.bodyLen = UInt32.ofNat argsLen) :
    marshalRequestBody env request hasHandles header fields front argsLen ≠
      .error .assertFailed := by
  intro hfailed
  unfold maxPacketLen maxArrayLen at hlen
  rcases bind_eq_error.mp hfailed with hstatus | ⟨body, hbody, hnext⟩
  · obtain ⟨status, hhalt⟩ := mapError_eq_error hstatus
    cases hhalt
  have hbytes : marshalArgs env.marshalEnv request.args front.length = .ok body := by
    cases hresult : marshalArgs env.marshalEnv request.args front.length with
    | error status => rw [hresult] at hbody; cases hbody
    | ok bytes => rw [hresult] at hbody; exact congrArg _ (Except.ok.inj hbody)
  have hsize : getSize env.junk request.args 0 = 0 + body.length :=
    marshalArgs_size env.marshalEnv env.junk hwell hfront hbytes
  rw [Nat.zero_add, ← hargs] at hsize
  split at hnext
  · -- the length is kept in the header as 32 bits
    rcases bind_eq_error.mp hnext with hbuilt | ⟨built, -, hassert⟩
    · refine reMarshal_asserts ?_ hbuilt
      have hhandles := fieldsLen_handles_le env.marshalEnv fields env.numHandles
      change fieldsLen env.marshalEnv (fields.setHandles env.numHandles) < 2 ^ 32
      omega
    · split at hassert
      · next hdiffers =>
          have hlt : argsLen < 2 ^ 32 := by omega
          rw [hbodyLen, UInt32.toNat_ofNat_of_lt' hlt] at hdiffers
          exact hdiffers rfl
      · cases hassert
  · split at hnext
    · next hdiffers => exact hdiffers hsize.symm
    · cases hnext

theorem marshalMessage_asserts (env : SendEnv) (request : Request) (fields : HeaderFields)
    (hasHandles : Bool) (hwell : AllWellFormed request.args) :
    marshalMessage env request fields hasHandles ≠ .error .assertFailed := by
  intro hfailed
  rcases bind_eq_error.mp hfailed with hfields | ⟨fields, -, hnext⟩
  · obtain ⟨status, hhalt⟩ := requestFields_halt hfields
    cases hhalt
  dsimp only at hnext
  split at hnext
  · cases hnext
  next hlimit =>
  rcases bind_eq_error.mp hnext with hvalue | ⟨value, hvalue, hrest⟩
  · cases marshalHeaderFields_halt hvalue
  have hsize := marshalHeaderFields_size hvalue
  have hround := roundUp8_mod (headerSize + fieldsLen env.marshalEnv fields)
  split at hrest
  · next hdiffers =>
      rw [List.length_append, MessageHeader.bytes_length] at hdiffers
      exact hdiffers hsize
  next hfront =>
  split at hrest
  · cases hrest
  refine marshalRequestBody_asserts hwell ?_ ?_ rfl rfl hrest
  · rw [not_not.mp hfront]
    exact hround
  · have hle : fieldsLen env.marshalEnv fields ≤ computeHeaderLen env.marshalEnv fields := by
      unfold computeHeaderLen roundUp8 headerSize
      omega
    omega

/-- The sizes that are computed beforehand are those of the bytes that are
written, so that no size assertion of `MarshalMessage` fails. -/
theorem sizes_agree (env : MarshalEnv) (junk : Nat → UInt8) (args : List MsgArg)
    (hwell : AllWellFormed args) :
    (∀ pos bytes, 8 ∣ pos → marshalArgs env args pos = .ok bytes →
      getSize junk args 0 = bytes.length) ∧
    (∀ fields : HeaderFields, (∀ id, MsgArg.isNull (fields.field id) = false) →
      ∃ bytes, marshalHeaderFields env fields = .ok bytes ∧
        computeHeaderLen env fields = headerSize + bytes.length) ∧
    ∀ (sendEnv : SendEnv) (request : Request) (fields : HeaderFields) (hasHandles : Bool),
      request.args = args →
        marshalMessage sendEnv request fields hasHandles ≠ .error .assertFailed := by
  refine ⟨fun pos bytes hpos hbytes => ?_, fun fields hreadable => ?_, ?_⟩
  · have hsize : getSize junk args 0 = 0 + bytes.length :=
      marshalArgs_size env junk hwell (Nat.mod_eq_zero_of_dvd hpos) hbytes
    rwa [Nat.zero_add] at hsize
  · obtain ⟨bytes, hbytes⟩ :=
      (marshalFields_ok_iff all headerSize).mpr fun id _ => hreadable id
    exact ⟨bytes, hbytes, (marshalHeaderFields_size hbytes).symm⟩
  · rintro sendEnv request fields hasHandles rfl
    exact marshalMessage_asserts sendEnv request fields hasHandles hwell

/-- A byte and an array of one string. -/
def byteAndStrings : List MsgArg :=
  [.scalar .byte ⟨7, by decide⟩, .array (some [115]) [.string (some [104, 105])]]

theorem sizes_agree_strings :
    AllWellFormed byteAndStrings ∧ getSize (fun _ => 0) byteAndStrings 0 = 15 := by
  have hwell : AllWellFormed byteAndStrings := ⟨trivial, ⟨by decide, trivial, trivial⟩, trivial⟩
  exact ⟨hwell, (sizes_agree ⟨fun _ => 0, false, .ok⟩ (fun _ => 0) _ hwell).1 16 _ (by decide) rfl⟩

end AllJoyn.Msg
