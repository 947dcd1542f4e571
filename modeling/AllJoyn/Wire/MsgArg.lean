import AllJoyn.Lib.Bytes
import AllJoyn.Status
import Mathlib.Data.List.TakeWhile

/-!
Message arguments (`MsgArg.h`) and the type characters of D-Bus signatures
(`AllJoynTypeId`). A string is the bytes it holds without the terminator, and
`none` where the code has a NULL pointer; a signature is a string of type
characters.
-/

namespace AllJoyn.Wire

abbrev Signature := List UInt8

/-- The basic types of fixed size. -/
inductive ScalarType where
  | byte
  | boolean
  | int16
  | uint16
  | int32
  | uint32
  | int64
  | uint64
  | double
  deriving DecidableEq, Repr

/-- Bytes of a value in a message body, which is also its alignment. -/
def ScalarType.size : ScalarType → Nat
  | .byte => 1
  | .int16 | .uint16 => 2
  | .boolean | .int32 | .uint32 => 4
  | .int64 | .uint64 | .double => 8

theorem ScalarType.size_dvd (type : ScalarType) : type.size ∣ 8 := by
  cases type <;> decide

theorem ScalarType.size_pos (type : ScalarType) : 0 < type.size := by
  cases type <;> decide

/-- A value is the bit pattern of its type; a boolean is 0 or 1. -/
def ScalarType.range : ScalarType → Nat
  | .boolean => 2
  | type => 256 ^ type.size

/-- `AllJoynTypeId` as it occurs in a signature. -/
inductive TypeId where
  | invalid
  | scalar (type : ScalarType)
  | string
  | objectPath
  | signature
  | handle
  | variant
  | array
  | struct
  | dictEntry
  | structOpen
  | structClose
  | dictEntryOpen
  | dictEntryClose
  | wildcard
  | unknown
  deriving DecidableEq, Repr

def ScalarType.char : ScalarType → UInt8
  | .byte => 121
  | .boolean => 98
  | .int16 => 110
  | .uint16 => 113
  | .int32 => 105
  | .uint32 => 117
  | .int64 => 120
  | .uint64 => 116
  | .double => 100

/-- The ASCII character of a type; every other character is `unknown`. -/
def TypeId.char : TypeId → UInt8
  | .invalid => 0
  | .scalar type => type.char
  | .string => 115
  | .objectPath => 111
  | .signature => 103
  | .handle => 104
  | .variant => 118
  | .array => 97
  | .struct => 114
  | .dictEntry => 101
  | .structOpen => 40
  | .structClose => 41
  | .dictEntryOpen => 123
  | .dictEntryClose => 125
  | .wildcard => 42
  | .unknown => 255

def TypeId.ofChar (char : UInt8) : TypeId :=
  match char.toNat with
  | 0 => .invalid
  | 40 => .structOpen
  | 41 => .structClose
  | 42 => .wildcard
  | 97 => .array
  | 98 => .scalar .boolean
  | 100 => .scalar .double
  | 101 => .dictEntry
  | 103 => .signature
  | 104 => .handle
  | 105 => .scalar .int32
  | 110 => .scalar .int16
  | 111 => .objectPath
  | 113 => .scalar .uint16
  | 114 => .struct
  | 115 => .string
  | 116 => .scalar .uint64
  | 117 => .scalar .uint32
  | 118 => .variant
  | 120 => .scalar .int64
  | 121 => .scalar .byte
  | 123 => .dictEntryOpen
  | 125 => .dictEntryClose
  | _ => .unknown

@[simp]
theorem TypeId.ofChar_char (id : TypeId) : TypeId.ofChar id.char = id := by
  cases id with
  | scalar type => cases type <;> rfl
  | _ => rfl

theorem TypeId.char_ne_zero {id : TypeId} (hid : id ≠ .invalid) : id.char ≠ 0 := by
  intro hzero
  apply hid
  rw [← TypeId.ofChar_char id, hzero]
  rfl

/-- `SignatureUtils::IsBasicType`. -/
def TypeId.isBasic : TypeId → Bool
  | .scalar _ | .string | .objectPath | .signature | .handle => true
  | _ => false

/-- `SignatureUtils::AlignmentForType`. -/
def TypeId.alignment : TypeId → Nat
  | .scalar type => type.size
  | .string | .objectPath | .array | .handle => 4
  | .variant | .signature => 1
  | .struct | .structOpen | .dictEntry | .dictEntryOpen => 8
  | _ => 0

/-- A message argument. Values of scalars carry their range, so that a boolean
other than 0 and 1 cannot be written down. -/
inductive MsgArg where
  | invalid
  | scalar (type : ScalarType) (value : Fin type.range)
  | string (str : Option (List UInt8))
  | objectPath (str : Option (List UInt8))
  | signature (sig : Option (List UInt8))
  | handle (fd : Nat)
  | variant (val : MsgArg)
  | struct (members : List MsgArg)
  | dictEntry (key val : MsgArg)
  | array (elemSig : Option Signature) (elements : List MsgArg)
  | scalarArray (type : ScalarType) (values : List (Fin type.range))

/-- `MsgArg::typeId`: arrays of scalars carry their element type as well. -/
def MsgArg.typeId : MsgArg → TypeId × Option ScalarType
  | .invalid => (.invalid, none)
  | .scalar type _ => (.scalar type, none)
  | .string _ => (.string, none)
  | .objectPath _ => (.objectPath, none)
  | .signature _ => (.signature, none)
  | .handle _ => (.handle, none)
  | .variant _ => (.variant, none)
  | .struct _ => (.struct, none)
  | .dictEntry _ _ => (.dictEntry, none)
  | .array _ _ => (.array, none)
  | .scalarArray type _ => (.array, some type)

def MsgArg.alignment (arg : MsgArg) : Nat := arg.typeId.1.alignment

/-- Alignment of the elements of an array with this element signature. -/
def elemAlignment (elemSig : Signature) : Nat := (TypeId.ofChar (elemSig.headD 0)).alignment

/-- The characters up to the first NUL. -/
def cString (chars : List UInt8) : List UInt8 := chars.takeWhile (· ≠ 0)

variable {chars : List UInt8}

theorem cString_of_nonzero (hnonzero : ∀ char ∈ chars, char ≠ 0) : cString chars = chars := by
  rw [cString]
  simpa using hnonzero

theorem cString_append_zero (hnonzero : ∀ char ∈ chars, char ≠ 0) (rest : List UInt8) :
    cString (chars ++ 0 :: rest) = chars := by
  rw [cString, List.takeWhile_append_of_pos (by simpa using hnonzero)]
  simp

/-- `ALLJOYN_MAX_ARRAY_LEN`. -/
def maxArrayLen : Nat := 131072

/-- `ALLJOYN_MAX_PACKET_LEN`. -/
def maxPacketLen : Nat := maxArrayLen + 4096

end AllJoyn.Wire
