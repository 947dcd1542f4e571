import AllJoyn.Message.Marshal

/-!
Receiving a message: `_Message::Unmarshal` (`Message_Parse.cc`) behind the
header fields. The name of the sender is put in order by writing the header
anew, and the flags are turned into those that the host keeps.
-/

namespace AllJoyn.Msg

open Lib.Bytes Lib.Result Wire

variable {fields : HeaderFields} {header : MessageHeader} {built : Built}

/-- What `Unmarshal` finds around the message: the parameters of the call, the
handles that came with it and the memory behind their table, and the answers of
the table of peers. -/
structure ReceiveEnv where
  host : ByteOrder
  started : Bool
  endpointName : List UInt8
  handlePassing : Bool
  checkSender : Bool
  pedantic : Bool
  numHandles : Nat
  table : Nat → Nat
  junk : Nat → UInt8
  validSerial : (serialNum : UInt32) → (secure unreliable : Bool) → Bool
  expired : Bool
  fuel : Nat

/-- A message that is received: its header, its fields and its body. -/
structure Received where
  msgHeader : MessageHeader
  fields : HeaderFields
  body : List UInt8

/-- `ALLJOYN_FLAG_SESSIONLESS`. -/
def sessionless : UInt8 := 16

/-- `ALLJOYN_FLAG_ENCRYPTED`. -/
def encrypted : UInt8 := 128

section

variable (env : ReceiveEnv)

/-- The check on the handles that came. -/
def handlesStatus (fields : HeaderFields) : QStatus :=
  let expectFds := fields.uint32 .handles
  if env.handlePassing then if expectFds ≠ env.numHandles then .busHandlesMismatch else .ok
  else if expectFds ≠ 0 ∨ env.numHandles ≠ 0 then .busHandlesNotEnabled
  else .ok

/-- The message has no sender, or another one than the endpoint it came from. -/
def senderDiffers (fields : HeaderFields) : Bool :=
  match fields.field .sender with
  | .string (some str) => cString str ≠ env.endpointName
  | _ => true

/-- The check on the serial number and on the time to live, for a message with
a sender. -/
def deliveryStatus (header : MessageHeader) (fields : HeaderFields) : QStatus :=
  let unreliable := fields.has .timeToLive
  let secure : Bool := header.flags &&& encrypted ≠ 0
  if !fields.has .sender then .ok
  else if header.flags &&& sessionless = 0 ∧ !env.validSerial header.serialNum secure unreliable then
    .busInvalidHeaderSerial
  else if unreliable ∧ env.expired then .busTimeToLiveExpired
  else .ok

def checked (status : QStatus) : Except Halt Unit :=
  if status = .ok then .ok () else .error (.status status)

/-- The sender is replaced by the name of the endpoint where it differs. -/
def correctSender (header : MessageHeader) (fields : HeaderFields) (body : Nat → UInt8) :
    Except Halt Received :=
  if env.checkSender && senderDiffers env fields then do
    let marshalEnv : MarshalEnv := ⟨env.junk, header.endian = ByteOrder.big.char, .ok⟩
    let built ← reMarshal env.host marshalEnv header fields (some (cString env.endpointName)) none body
    return ⟨built.msgHeader, built.fields, read body 0 header.bodyLen.toNat⟩
  else return ⟨header, fields, read body 0 header.bodyLen.toNat⟩

def unmarshal (info : Interpreted) (content : Nat → UInt8) : Except Halt Received := do
  checked (if env.started then .ok else .busBusNotStarted)
  let buffer := info.buffer content []
  let (fields, bodyPtr) ← (traceHeader buffer env.table env.fuel
    (headerSize + info.msgHeader.headerLen.toNat)).result.mapError .status
  checked (headerChecks (.ofByte info.msgHeader.msgType) fields env.pedantic)
  checked (handlesStatus env fields)
  let received ← correctSender env info.msgHeader fields fun i => buffer.mem (bodyPtr + i)
  checked (deliveryStatus env received.msgHeader received.fields)
  return { received with msgHeader := received.msgHeader.onTheWire }

/-- A whole message that is interpreted and unmarshalled. -/
def receive (bytes : List UInt8) : Except Halt Received := do
  let info ← (interpretHeader env.host (.ofBytes env.host (bytes.take headerSize))).mapError .status
  unmarshal env info (bytes.getD · 0)

end

/-! ### The sender -/

/-- The message is valid up to its sender: `fields` are its header fields, and
its body starts at `bodyPtr`. -/
structure Valid (env : ReceiveEnv) (info : Interpreted) (content : Nat → UInt8)
    (fields : HeaderFields) (bodyPtr : Nat) : Prop where
  started : env.started = true
  parsed : (traceHeader (info.buffer content []) env.table env.fuel
    (headerSize + info.msgHeader.headerLen.toNat)).result = .ok (fields, bodyPtr)
  checks : headerChecks (.ofByte info.msgHeader.msgType) fields env.pedantic = .ok
  handles : handlesStatus env fields = .ok

/-- The message is accepted with the name of the endpoint as its sender, and
all the rest of it is as it came. -/
def Replaced (env : ReceiveEnv) (info : Interpreted) (content : Nat → UInt8)
    (fields : HeaderFields) (bodyPtr : Nat) (result : Except Halt Received) : Prop :=
  ∃ received, result = .ok received ∧
    received.fields.field .sender = .string (some env.endpointName) ∧
    (∀ id, id ≠ .sender → received.fields.field id = fields.field id) ∧
    received.msgHeader.flags = info.msgHeader.onTheWire.flags ∧
    received.msgHeader.serialNum = info.msgHeader.serialNum ∧
    received.body = read (info.buffer content []).mem bodyPtr info.msgHeader.bodyLen.toNat

/-- With a sender but no destination to set, the header is not written. -/
theorem reMarshal_no_destination (host : ByteOrder) (env : MarshalEnv) (header : MessageHeader)
    (fields : HeaderFields) (senderName : List UInt8) (body : Nat → UInt8) :
    reMarshal host env header fields (some senderName) none body = .error .nullRead := by
  have hnull :
      MsgArg.isNull ((fields.readdress (some senderName) none).field .destination) = true := by
    rfl
  have hhalts : marshalHeaderFields env (fields.readdress (some senderName) none) =
      .error .nullRead := by
    cases hresult : marshalHeaderFields env (fields.readdress (some senderName) none) with
    | error halt => rw [marshalHeaderFields_halt hresult]
    | ok bytes =>
      have hreadable := (marshalFields_ok_iff FieldId.all headerSize).mp ⟨bytes, hresult⟩
      rw [hreadable .destination (FieldId.mem_all _)] at hnull
      cases hnull
  rw [reMarshal, hhalts, error_bind]

variable {env : ReceiveEnv} {info : Interpreted}

/-- A message whose sender is to be replaced is not received. -/
theorem unmarshal_replace {content : Nat → UInt8} {bodyPtr : Nat}
    (hvalid : Valid env info content fields bodyPtr) (hcheck : env.checkSender = true)
    (hdiffers : senderDiffers env fields = true) :
    unmarshal env info content = .error .nullRead := by
  have hsender : ∀ body, correctSender env info.msgHeader fields body = .error .nullRead := by
    intro body
    rw [correctSender, hcheck, hdiffers, Bool.and_self, if_pos rfl]
    dsimp only
    rw [reMarshal_no_destination, error_bind]
  unfold unmarshal
  dsimp only
  rw [hvalid.started, hvalid.parsed]
  change (checked (headerChecks _ fields _) >>= fun _ => _) = _
  rw [hvalid.checks]
  rw [hvalid.handles]
  change (correctSender env info.msgHeader fields _ >>= fun _ => _) = _
  rw [hsender, error_bind]

/-- The sender of a valid message is replaced properly exactly if there is
nothing to replace. -/
theorem unmarshal_sender_iff (env : ReceiveEnv) (info : Interpreted) (content : Nat → UInt8)
    (fields : HeaderFields) (bodyPtr : Nat) (hvalid : Valid env info content fields bodyPtr)
    (hcheck : env.checkSender = true) :
    (senderDiffers env fields = true →
      Replaced env info content fields bodyPtr (unmarshal env info content)) ↔
      senderDiffers env fields = false := by
  constructor
  · intro hreplaced
    cases hdiffers : senderDiffers env fields with
    | false => rfl
    | true =>
      obtain ⟨received, hok, -⟩ := hreplaced hdiffers
      rw [unmarshal_replace hvalid hcheck hdiffers] at hok
      cases hok
  · intro hsame hdiffers
    rw [hsame] at hdiffers
    cases hdiffers

/-- A method call of member `a` on path `/`, without a sender. -/
def bareCall : List UInt8 :=
  [108, 1, 0, 1, 0, 0, 0, 0, 1, 0, 0, 0, 26, 0, 0, 0, 1, 1, 111, 0, 1, 0, 0, 0, 47, 0, 0, 0, 0, 0, 0,
    0, 3, 1, 115, 0, 1, 0, 0, 0, 97, 0, 0, 0, 0, 0, 0, 0]

def bareCallInfo : Interpreted :=
  ⟨⟨108, 1, 0, 1, 0, 1, 26⟩, false, 32, bareCall.take headerSize⟩

/-- An endpoint with the name `:1.2`. -/
def checkingEnv : ReceiveEnv :=
  ⟨.little, true, [58, 49, 46, 50], false, true, false, 0, id, fun _ => 0, fun _ _ _ => true, false, 4⟩

theorem bareCall_valid : ∃ fields bodyPtr,
    Valid checkingEnv bareCallInfo (bareCall.getD · 0) fields bodyPtr ∧
      senderDiffers checkingEnv fields = true := by
  have hrun : ((traceHeader (bareCallInfo.buffer (bareCall.getD · 0) []) id 4 42).result.map
      fun value => (headerChecks .methodCall value.1 false, handlesStatus checkingEnv value.1,
        senderDiffers checkingEnv value.1)) = .ok (.ok, .ok, true) := by
    decide +kernel
  cases hresult : (traceHeader (bareCallInfo.buffer (bareCall.getD · 0) []) id 4 42).result with
  | error status =>
    rw [hresult] at hrun
    cases hrun
  | ok value =>
    rw [hresult] at hrun
    obtain ⟨hchecks, hhandles, hdiffers⟩ : _ ∧ _ ∧ _ := by simpa [Except.map] using hrun
    exact ⟨value.1, value.2, ⟨rfl, hresult, hchecks, hhandles⟩, hdiffers⟩

theorem unmarshal_sender_bareCall : ∃ fields bodyPtr,
    Valid checkingEnv bareCallInfo (bareCall.getD · 0) fields bodyPtr ∧
      ((senderDiffers checkingEnv fields = true →
        Replaced checkingEnv bareCallInfo (bareCall.getD · 0) fields bodyPtr
          (unmarshal checkingEnv bareCallInfo (bareCall.getD · 0))) ↔
        senderDiffers checkingEnv fields = false) := by
  obtain ⟨fields, bodyPtr, hvalid, -⟩ := bareCall_valid
  exact ⟨fields, bodyPtr, hvalid, unmarshal_sender_iff _ _ _ _ _ hvalid rfl⟩

/-- The sender of the call is to be set, and the call is not received. -/
theorem bareCall_not_replaced :
    interpretHeader .little (.ofBytes .little bareCall) = .ok bareCallInfo ∧
      ∃ fields bodyPtr, Valid checkingEnv bareCallInfo (bareCall.getD · 0) fields bodyPtr ∧
        senderDiffers checkingEnv fields = true ∧
        unmarshal checkingEnv bareCallInfo (bareCall.getD · 0) = .error .nullRead := by
  obtain ⟨fields, bodyPtr, hvalid, hdiffers⟩ := bareCall_valid
  exact ⟨by decide, fields, bodyPtr, hvalid, hdiffers, unmarshal_replace hvalid rfl hdiffers⟩

/-! ### The flags -/

theorem bytes_flags (host : ByteOrder) (header : MessageHeader) (rest : List UInt8) :
    ((header.convert host).bytes host ++ rest).getD 2 0 = header.flags := by
  unfold MessageHeader.convert
  split <;> rfl

variable {host : ByteOrder}

theorem interpretHeader_flags {raw : MessageHeader} (hinfo : interpretHeader host raw = .ok info) :
    info.msgHeader.flags = raw.flags := by
  simp only [interpretHeader] at hinfo
  split at hinfo
  · cases hinfo
  split at hinfo
  · cases hinfo
  split at hinfo
  · cases hinfo
  cases hinfo
  unfold MessageHeader.convert
  split <;> rfl

variable {body : Nat → UInt8}

theorem reMarshal_ok {env : MarshalEnv} {senderName destination : Option (List UInt8)}
    (hok : reMarshal host env header fields senderName destination body = .ok built) :
    built.msgHeader.flags = header.flags ∧ built.bytes.getD 2 0 = header.flags := by
  obtain ⟨value, -, hnext⟩ := bind_eq_ok.mp hok
  split at hnext
  · cases hnext
  split at hnext
  · cases hnext
  cases hnext
  exact ⟨rfl, bytes_flags host _ _⟩

theorem mapError_eq_ok {A : Type} {result : Except QStatus A} {a : A}
    (hok : result.mapError Halt.status = .ok a) : result = .ok a := by
  cases result with
  | error status => cases hok
  | ok b => exact congrArg _ (Except.ok.inj hok)

variable {received : Received}

theorem correctSender_flags (hok : correctSender env header fields body = .ok received) :
    received.msgHeader.flags = header.flags := by
  unfold correctSender at hok
  split at hok
  · obtain ⟨built, hbuilt, hpure⟩ := bind_eq_ok.mp hok
    cases hpure
    exact (reMarshal_ok hbuilt).1
  · cases hok
    rfl

/-- A message that is received has the flags of its third byte, with the other
`AUTO_START` flag. -/
theorem receive_flags {bytes : List UInt8} (hok : receive env bytes = .ok received) :
    received.msgHeader.flags = bytes.getD 2 0 ^^^ autoStart := by
  obtain ⟨info, hinfo, hunmarshal⟩ := bind_eq_ok.mp hok
  have hflags : info.msgHeader.flags = bytes.getD 2 0 := by
    rw [interpretHeader_flags (mapError_eq_ok hinfo)]
    change (bytes.take 16).getD 2 0 = _
    simp [List.getD_eq_getElem?_getD]
  obtain ⟨-, -, hunmarshal⟩ := bind_eq_ok.mp hunmarshal
  obtain ⟨⟨fields, bodyPtr⟩, -, hunmarshal⟩ := bind_eq_ok.mp hunmarshal
  obtain ⟨-, -, hunmarshal⟩ := bind_eq_ok.mp hunmarshal
  obtain ⟨-, -, hunmarshal⟩ := bind_eq_ok.mp hunmarshal
  obtain ⟨corrected, hcorrected, hunmarshal⟩ := bind_eq_ok.mp hunmarshal
  obtain ⟨-, -, hpure⟩ := bind_eq_ok.mp hunmarshal
  cases hpure
  change corrected.msgHeader.flags ^^^ autoStart = _
  rw [correctSender_flags hcorrected, hflags]

theorem xor_autoStart_self (flags : UInt8) : flags ^^^ autoStart ^^^ autoStart = flags := by
  rw [UInt8.xor_assoc, UInt8.xor_self, UInt8.xor_zero]

theorem xor_autoStart_ne (flags : UInt8) : flags ^^^ autoStart ≠ flags := by
  intro hsame
  have hzero : flags ^^^ (flags ^^^ autoStart) = flags ^^^ flags := by rw [hsame]
  rw [← UInt8.xor_assoc, UInt8.xor_self] at hzero
  revert hzero
  decide

/-- The header is written by `ReMarshal`. -/
def isReMarshalled (env : SendEnv) (request : Request) (hasHandles : Bool) : Bool :=
  getSize env.junk request.args 0 ≠ 0 ∧ (hasHandles || anyHandle request.args)

variable {request : Request} {hasHandles : Bool} {env : SendEnv}

theorem marshalRequestBody_flags {front : List UInt8} {argsLen : Nat}
    (hfront : headerSize ≤ front.length)
    (hok : marshalRequestBody env request hasHandles header fields front argsLen = .ok built) :
    built.bytes.getD 2 0 =
      if hasHandles || anyHandle request.args then header.flags else front.getD 2 0 := by
  obtain ⟨body, -, hnext⟩ := bind_eq_ok.mp hok
  split at hnext
  · next hhandles =>
      obtain ⟨remade, hremade, hassert⟩ := bind_eq_ok.mp hnext
      split at hassert
      · cases hassert
      cases hassert
      rw [if_pos hhandles, (reMarshal_ok hremade).2]
  · next hhandles =>
      split at hnext
      · cases hnext
      cases hnext
      rw [if_neg hhandles]
      have htwo : 2 < front.length := lt_of_lt_of_le (by decide) hfront
      rw [List.getD_eq_getElem?_getD, List.getElem?_append_left htwo, List.getD_eq_getElem?_getD]

/-- The flags of a message that is built are on the wire with the other
`AUTO_START` flag, unless the header was written again. -/
theorem marshalMessage_flags (hok : marshalMessage env request fields hasHandles = .ok built) :
    built.bytes.getD 2 0 =
      if isReMarshalled env request hasHandles then request.flags
      else request.flags ^^^ autoStart := by
  obtain ⟨prepared, -, hnext⟩ := bind_eq_ok.mp hok
  dsimp only at hnext
  split at hnext
  · cases hnext
  obtain ⟨value, -, hrest⟩ := bind_eq_ok.mp hnext
  split at hrest
  · cases hrest
  have hflags := bytes_flags env.host (requestHeader env request (getSize env.junk request.args 0)
    (fieldsLen env.marshalEnv prepared)).onTheWire value
  split at hrest
  · next hempty =>
      cases hrest
      rw [hflags, isReMarshalled, hempty]
      rfl
  · next hbody =>
      rw [marshalRequestBody_flags (by simp) hrest, hflags, isReMarshalled]
      simp only [ne_eq, hbody, not_false_eq_true, true_and, Bool.decide_eq_true]
      rfl

/-- The flags byte of a message that is built has the other `AUTO_START` flag,
and receiving it gives the requested flags, exactly if the message has no body
or carries no handles. -/
theorem marshalMessage_flags_iff (env : SendEnv) (request : Request) (fields : HeaderFields)
    (hasHandles : Bool) (built : Built)
    (hok : marshalMessage env request fields hasHandles = .ok built) :
    (built.bytes.getD 2 0 = request.flags ^^^ autoStart ∧
      ∀ receiver received, receive receiver built.bytes = .ok received →
        received.msgHeader.flags = request.flags) ↔
      getSize env.junk request.args 0 = 0 ∨ (hasHandles || anyHandle request.args) = false := by
  have hflags := marshalMessage_flags hok
  have hcondition : isReMarshalled env request hasHandles = false ↔
      getSize env.junk request.args 0 = 0 ∨ (hasHandles || anyHandle request.args) = false := by
    unfold isReMarshalled
    rw [decide_eq_false_iff_not, not_and_or, not_not, Bool.not_eq_true]
  rw [← hcondition]
  constructor
  · rintro ⟨hwire, -⟩
    cases hagain : isReMarshalled env request hasHandles with
    | false => rfl
    | true =>
      rw [hagain, if_pos rfl, hwire] at hflags
      exact absurd hflags (xor_autoStart_ne request.flags)
  · intro honce
    rw [honce, if_neg (by decide)] at hflags
    refine ⟨hflags, fun receiver received hreceived => ?_⟩
    rw [receive_flags hreceived, hflags, xor_autoStart_self]

def sendEnv : SendEnv := ⟨.little, .little, fun _ => 0, fun _ => .ok 0, ⟨1, by decide⟩, 1⟩

/-- A signal with a single handle, to be sent without flags. -/
def handleRequest : Request := ⟨[104], [58, 49], [], 4, [.handle 5], 0, 0, by decide⟩

theorem marshalMessage_flags_handle : ∃ built,
    marshalMessage sendEnv handleRequest .none false = .ok built ∧
      ((built.bytes.getD 2 0 = handleRequest.flags ^^^ autoStart ∧
        ∀ receiver received, receive receiver built.bytes = .ok received →
          received.msgHeader.flags = handleRequest.flags) ↔
        getSize sendEnv.junk handleRequest.args 0 = 0 ∨
          (false || anyHandle handleRequest.args) = false) := by
  have hrun : (marshalMessage sendEnv handleRequest .none false).isOk = true := by decide +kernel
  cases hok : marshalMessage sendEnv handleRequest .none false with
  | error halt =>
    rw [hok] at hrun
    cases hrun
  | ok built => exact ⟨built, rfl, marshalMessage_flags_iff _ _ _ _ built hok⟩

/-- The byte on the wire is 0, where 2 was to be written. -/
theorem handleRequest_flags :
    ((marshalMessage sendEnv handleRequest .none false).map fun built => built.bytes.getD 2 0) =
      .ok 0 ∧ handleRequest.flags ^^^ autoStart = 2 := by
  decide +kernel

end AllJoyn.Msg
