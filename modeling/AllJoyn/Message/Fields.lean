import AllJoyn.Wire.MsgArg

/-!
The header fields of a message (`HeaderFields` in `Message.h`). A field that a
message does not have is an invalid argument; a field that it has is of the
type that `HeaderFields::FieldType` gives for it.
-/

namespace AllJoyn.Msg

open Wire

/-- `AllJoynFieldType`, without the two values that are no field. -/
inductive FieldId where
  | path
  | interface
  | member
  | errorName
  | replySerial
  | destination
  | sender
  | signature
  | handles
  | timestamp
  | timeToLive
  | compressionToken
  | sessionId
  deriving DecidableEq, Repr

/-- The fields in the order of the enumeration. -/
def FieldId.all : List FieldId :=
  [.path, .interface, .member, .errorName, .replySerial, .destination, .sender, .signature,
    .handles, .timestamp, .timeToLive, .compressionToken, .sessionId]

theorem FieldId.mem_all (id : FieldId) : id ∈ FieldId.all := by
  cases id <;> decide

/-- `HeaderFields::FieldType`. -/
def FieldId.type : FieldId → TypeId
  | .path => .objectPath
  | .interface | .member | .errorName | .destination | .sender => .string
  | .replySerial | .handles | .timestamp | .compressionToken | .sessionId => .scalar .uint32
  | .timeToLive => .scalar .uint16
  | .signature => .signature

structure HeaderFields where
  field : FieldId → MsgArg
  typed : ∀ id, field id = .invalid ∨ (field id).typeId = (id.type, none)

/-- The message has the field. -/
def HeaderFields.has (fields : HeaderFields) (id : FieldId) : Bool :=
  (fields.field id).typeId.1 ≠ .invalid

/-- No field is present (`HeaderFields::Clear`). -/
def HeaderFields.none : HeaderFields := ⟨fun _ => .invalid, fun _ => .inl rfl⟩

def HeaderFields.set (fields : HeaderFields) (id : FieldId) (value : MsgArg)
    (htype : value = .invalid ∨ value.typeId = (id.type, Option.none)) : HeaderFields where
  field := Function.update fields.field id value
  typed other := by
    rcases eq_or_ne other id with rfl | hother
    · simpa using htype
    · rw [Function.update_of_ne hother]
      exact fields.typed other

theorem HeaderFields.set_other (fields : HeaderFields) {id other : FieldId} {value : MsgArg}
    (htype : value = .invalid ∨ value.typeId = (id.type, Option.none)) (hother : other ≠ id) :
    (fields.set id value htype).field other = fields.field other := by
  simp [HeaderFields.set, hother]

/-- `AllJoynMessageType`; the byte of the header may hold any other value. -/
inductive MsgType where
  | methodCall
  | methodRet
  | error
  | signal
  | other (code : UInt8)
  deriving DecidableEq, Repr

def MsgType.ofByte (code : UInt8) : MsgType :=
  if code = 1 then .methodCall
  else if code = 2 then .methodRet
  else if code = 3 then .error
  else if code = 4 then .signal
  else .other code

end AllJoyn.Msg
