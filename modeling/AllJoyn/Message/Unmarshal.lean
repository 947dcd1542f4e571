import AllJoyn.Message.Checks
import AllJoyn.Message.Load
import AllJoyn.Wire.Arrays

/-!
The header fields of a received message: the first part of `_Message::Unmarshal`
(`Message_Parse.cc`), with a log of what is read from the message buffer.
-/

namespace AllJoyn.Msg

open Lib Lib.Bytes Wire

/-- What `FieldTypeMapping` makes of the number of a field. -/
inductive FieldCode where
  | invalid
  | unknown
  | known (id : FieldId)
  deriving DecidableEq, Repr

def FieldCode.ofByte (code : UInt8) : FieldCode :=
  match code.toNat with
  | 0 => .invalid
  | 1 => .known .path
  | 2 => .known .interface
  | 3 => .known .member
  | 4 => .known .errorName
  | 5 => .known .replySerial
  | 6 => .known .destination
  | 7 => .known .sender
  | 8 => .known .signature
  | 9 => .known .handles
  | 16 => .known .timestamp
  | 17 => .known .timeToLive
  | 18 => .known .compressionToken
  | 19 => .known .sessionId
  | _ => .unknown

/-- A field of type `UINT32`, zero if the message does not have it. -/
def HeaderFields.uint32 (fields : HeaderFields) (id : FieldId) : Nat :=
  match fields.field id with
  | .scalar .uint32 value => value
  | _ => 0

/-- `GetSignature`. -/
def HeaderFields.signature (fields : HeaderFields) : Signature :=
  match fields.field .signature with
  | .signature (some sig) => cString sig
  | _ => []

/-- A parsed value is kept if it has the type of the field. -/
def HeaderFields.store (fields : HeaderFields) (id : FieldId) (value : MsgArg) : HeaderFields :=
  if htype : value.typeId = (id.type, Option.none) then fields.set id value (.inr htype) else fields

section

variable (buffer : Buffer) (table : Nat → Nat) (fuel endOfHdr : Nat)

/-- The handles that `ParseValue` finds among the header fields: as many as the
field HANDLES says, if it came before, whether or not they came with the
message. -/
def fieldBuffer (fields : HeaderFields) : Buffer :=
  { buffer with handles := (List.range (fields.uint32 .handles)).map table }

/-- A string in memory, up to its terminator. -/
def stringAt (pos : Nat) : Signature := cString (read buffer.mem pos (buffer.size - pos))

/-- The value of a field behind its signature. The signature of an unknown
field is read up to its terminator, wherever that lies, and one character more
if it is empty. -/
def traceField (fields : HeaderFields) (code : FieldCode) (sigLen sigPtr pos : Nat) :
    ParseTrace (HeaderFields × Nat) :=
  match code with
  | .invalid => .fail .busBadHeaderField
  | .unknown => do
    let sig ← .log [.read sigPtr ((stringAt buffer sigPtr).length + 2)]
      (.ok (stringAt buffer sigPtr))
    let (_, rest, pos) ← traceValue (fieldBuffer buffer table fields) fuel sig false pos
    if rest ≠ [] then .fail .busBadHeaderField else return (fields, pos)
  | .known id => do
    let sig ← .log [.read sigPtr 2] (.ok (read buffer.mem sigPtr 2))
    if sigLen ≠ 1 ∨ sig ≠ [id.type.char, 0] then .fail .busBadHeaderField
    else do
      let (value, _, pos) ← traceValue (fieldBuffer buffer table fields) fuel [id.type.char] false
        pos
      return (fields.store id value, pos)

/-- The loop over the header fields. Every turn of it advances by two bytes at
least. -/
def traceFields : Nat → HeaderFields → Nat → ParseTrace (HeaderFields × Nat)
  | 0, _, _ => .fail .fail
  | turns + 1, fields, pos =>
    if pos < endOfHdr then do
      let start := align pos 8
      let code ← buffer.loadByte start
      if start + 1 > endOfHdr then return (fields, start + 1)
      else if FieldCode.ofByte code = .invalid then .fail .busBadHeaderField
      else do
        let sigLen ← buffer.loadByte (start + 1)
        let behind := start + 2 + (1 + sigLen.toNat)
        if behind > endOfHdr then return (fields, behind)
        else do
          let (fields, pos) ← traceField buffer table fuel fields (.ofByte code) sigLen.toNat
            (start + 2) behind
          traceFields turns fields pos
    else return (fields, pos)

/-- The header fields and the start of the body. -/
def traceHeader : ParseTrace (HeaderFields × Nat) := do
  let (fields, pos) ← traceFields buffer table fuel endOfHdr (endOfHdr + 1) .none headerSize
  if pos ≠ endOfHdr then .fail .busBadHeaderLen else return (fields, align pos 8)

end

/-! ### Inside of the buffer -/

/-- The buffer of a message whose header was interpreted. The padding behind
the packet is zero. -/
def Interpreted.buffer (info : Interpreted) (content : Nat → UInt8) (handles : List Nat) : Buffer :=
  let eod := headerSize + info.pktSize
  ⟨fun pos => if pos < eod then content pos else 0, eod, info.endianSwap, handles⟩

theorem align_eight (pos : Nat) : align pos 8 = roundUp8 pos := by
  unfold align padBytes roundUp8
  omega

theorem Interpreted.bufSize_eq (info : Interpreted) (content : Nat → UInt8) (handles : List Nat) :
    (info.buffer content handles).size = info.bufSize := by
  rw [Buffer.size, Buffer.last, align_eight]
  unfold Interpreted.bufSize Interpreted.buffer roundUp8 headerSize
  dsimp only
  omega

theorem cString_read_le {mem : Nat → UInt8} {pos count nul : Nat} (hzero : mem nul = 0)
    (hpos : pos ≤ nul) (hcount : nul < pos + count) :
    pos + (cString (read mem pos count)).length ≤ nul := by
  induction count generalizing pos with
  | zero => omega
  | succ count ih =>
    rw [Lib.Bytes.read, cString, List.takeWhile_cons]
    split
    · next hchar =>
        have hnext : pos ≠ nul := by
          rintro rfl
          simp [hzero] at hchar
        have hrest := @ih (pos + 1) (by omega) (by omega)
        rw [cString] at hrest
        rw [List.length_cons]
        omega
    · simpa using hpos

section

variable {buffer : Buffer} {table : Nat → Nat} {fuel endOfHdr : Nat}

theorem traceField_meets (hzero : buffer.mem buffer.eod = 0) (fields : HeaderFields)
    (code : FieldCode) (sigLen : Nat) {sigPtr pos : Nat} (hsig : sigPtr ≤ buffer.eod)
    (hpos : pos ≤ buffer.eod) :
    (traceField buffer table fuel fields code sigLen sigPtr pos).Meets (·.Inside buffer.size)
      (fun value => value.2 ≤ buffer.eod) := by
  have hlast := buffer.eod_le_last
  have hvalue : ∀ sig, (traceValue (fieldBuffer buffer table fields) fuel sig false pos).Meets
      (·.Inside buffer.size) (fun value => value.2.2 ≤ buffer.eod) := fun sig =>
    traceValue_meets (hpos.trans hlast)
  cases code with
  | invalid => exact .fail
  | unknown =>
    have hstring : sigPtr + (stringAt buffer sigPtr).length ≤ buffer.eod :=
      cString_read_le hzero hsig (by unfold Buffer.size; omega)
    have hread : (Traced.log [.read sigPtr ((stringAt buffer sigPtr).length + 2)]
        (.ok (stringAt buffer sigPtr)) : ParseTrace Signature).Meets (·.Inside buffer.size)
        (fun _ => True) := by
      refine log_meets ?_ fun _ _ => trivial
      simp only [List.mem_singleton, forall_eq, ParseEvent.Inside, Buffer.size]
      omega
    refine hread.bind fun sig _ => (hvalue sig).bind fun value hend => ?_
    dsimp only
    split
    · exact .fail
    · exact .pure hend
  | known id =>
    have hread : (Traced.log [.read sigPtr 2]
        (.ok (read buffer.mem sigPtr 2)) : ParseTrace Signature).Meets (·.Inside buffer.size)
        (fun _ => True) := by
      refine log_meets ?_ fun _ _ => trivial
      simp only [List.mem_singleton, forall_eq, ParseEvent.Inside, Buffer.size]
      omega
    refine hread.bind fun sig _ => ?_
    split
    · exact .fail
    · exact (hvalue _).bind fun value hend => .pure hend

theorem traceFields_meets (hzero : buffer.mem buffer.eod = 0) (hhdr : endOfHdr ≤ buffer.eod)
    (turns : Nat) (fields : HeaderFields) {pos : Nat} (hpos : pos ≤ buffer.eod) :
    (traceFields buffer table fuel endOfHdr turns fields pos).Meets (·.Inside buffer.size)
      (fun _ => True) := by
  induction turns generalizing fields pos with
  | zero => exact .fail
  | succ turns ih =>
    have hlast := buffer.eod_le_last
    rw [traceFields]
    split
    · have hstart : align pos 8 ≤ buffer.last := Buffer.align_le_last (by omega) (dvd_refl 8)
      refine (loadByte_meets hstart).bind fun code _ => ?_
      split
      · exact .pure trivial
      next hbyte =>
      split
      · exact .fail
      refine (loadByte_meets (by omega)).bind fun sigLen _ => ?_
      dsimp only
      split
      · exact .pure trivial
      next hbehind =>
      refine (traceField_meets hzero fields _ _ (by omega) (by omega)).bind fun value hvalue => ?_
      exact ih value.1 hvalue
    · exact .pure trivial

theorem traceHeader_meets (hzero : buffer.mem buffer.eod = 0) (hstart : headerSize ≤ buffer.eod)
    (hhdr : endOfHdr ≤ buffer.eod) :
    (traceHeader buffer table fuel endOfHdr).Meets (·.Inside buffer.size)
      (fun value => value.2 ≤ buffer.last) := by
  refine (traceFields_meets hzero hhdr _ _ hstart).bind fun value _ => ?_
  dsimp only
  split
  · exact .fail
  · next hend =>
      have hlast := buffer.eod_le_last
      exact .pure (Buffer.align_le_last (by omega) (dvd_refl 8))

end

/-- The parser of the header fields and that of the body read inside of the
message buffer, whatever bytes came, and the arguments of an accepted body end
in front of its end. Decryption may have changed the bytes of the body and its
length. -/
theorem unmarshal_inside (host : ByteOrder) (raw : MessageHeader) (info : Interpreted)
    (hinfo : interpretHeader host raw = .ok info) (content : Nat → UInt8) (table : Nat → Nat)
    (fuel : Nat) :
    let header := traceHeader (info.buffer content []) table fuel
      (headerSize + info.msgHeader.headerLen.toNat)
    (∀ event ∈ header.events, event.Inside info.bufSize) ∧
      ∀ fields bodyPtr, header.result = .ok (fields, bodyPtr) →
        ∀ (plain : Nat → UInt8) (handles : List Nat) (bodyLen : Nat),
          let body := traceArgs (info.buffer plain handles) fuel fields.signature bodyPtr
            (bodyPtr + bodyLen)
          (∀ event ∈ body.events, event.Inside info.bufSize) ∧
            ∀ args, body.result = .ok args → ∀ finish, .value finish ∈ body.events →
              finish ≤ bodyPtr + bodyLen := by
  intro header
  have hheaderLen : info.msgHeader.headerLen.toNat ≤ info.pktSize := by
    rw [interpretHeader_pktSize hinfo, roundUp8]
    omega
  have hmeets : header.Meets (·.Inside (info.buffer content []).size)
      (fun value => value.2 ≤ (info.buffer content []).last) :=
    traceHeader_meets (by simp [Interpreted.buffer]) (Nat.le_add_right _ _)
      (Nat.add_le_add_left hheaderLen _)
  rw [Interpreted.bufSize_eq] at hmeets
  refine ⟨hmeets.event, fun fields bodyPtr hresult plain handles bodyLen => ?_⟩
  intro body
  have hbody : Runs (info.buffer plain handles) body bodyPtr fun _ => bodyPtr + bodyLen :=
    traceArgs_runs fuel fields.signature bodyPtr (bodyPtr + bodyLen)
  have hinside := hbody.inside (hmeets.result _ hresult)
  rw [Interpreted.bufSize_eq] at hinside
  exact ⟨hinside, fun args hok => (hbody.advances args hok).2⟩

/-- A method call with a signature field and a body of one byte. -/
def byteCall : List UInt8 :=
  [108, 1, 0, 1, 1, 0, 0, 0, 1, 0, 0, 0, 7, 0, 0, 0, 8, 1, 103, 0, 1, 121, 0, 0, 42]

def byteCallInfo : Interpreted :=
  ⟨⟨108, 1, 0, 1, 1, 1, 7⟩, false, 9, byteCall.take headerSize⟩

theorem unmarshal_inside_byteCall :
    interpretHeader .little (.ofBytes .little byteCall) = .ok byteCallInfo ∧
      ∀ event ∈ (traceHeader (byteCallInfo.buffer (byteCall.getD · 0) []) id 2
        (headerSize + byteCallInfo.msgHeader.headerLen.toNat)).events,
        event.Inside byteCallInfo.bufSize :=
  have hinfo : interpretHeader .little (.ofBytes .little byteCall) = .ok byteCallInfo := by decide
  ⟨hinfo, (unmarshal_inside .little _ _ hinfo (byteCall.getD · 0) id 2).1⟩

end AllJoyn.Msg
