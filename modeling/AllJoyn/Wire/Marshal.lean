import AllJoyn.Wire.Signature

/-!
Marshalling of message arguments (`_Message::MarshalArgs`). Positions are
addresses, since padding depends on them; a function returns the bytes it
writes from the position it starts at.
-/

namespace AllJoyn.Wire

open Lib.Bytes

/-- What marshalling reads besides the arguments: the contents of the buffers
in which signatures are composed, whether the message has the other byte order
than the host, and the table of the handles it carries. -/
structure MarshalEnv where
  junk : Nat → UInt8
  endianSwap : Bool
  handleIndex : Nat → Except QStatus Nat

def MarshalEnv.word (env : MarshalEnv) (width value : Nat) : List UInt8 :=
  wordBytes env.endianSwap width value

def checkedArraySize (size : Nat) : Except QStatus Nat :=
  if size > maxArrayLen then .error .busBadLength else .ok size

/-- A string or object path behind its padding. -/
def MarshalEnv.stringBytes (env : MarshalEnv) (str : Option (List UInt8)) : List UInt8 :=
  env.word 4 (str.getD []).length ++ ((str.getD []) ++ [0])

/-- A signature with its length byte and terminator. -/
def signatureBytes (sig : List UInt8) : List UInt8 := UInt8.ofNat sig.length :: (sig ++ [0])

def MarshalEnv.scalarBytes (env : MarshalEnv) {type : ScalarType}
    (values : List (Fin type.range)) : List UInt8 :=
  values.flatMap fun value => env.word type.size value.val

/-- The length of an array does not include the padding in front of elements
that are aligned to 8 bytes. -/
def elemPadding (alignment pos : Nat) : List UInt8 :=
  if alignment = 8 then padding pos 8 else []

/-- `MarshalPad` in front of a value. -/
def padded (alignment : Nat) (body : Nat → Except QStatus (List UInt8)) (pos : Nat) :
    Except QStatus (List UInt8) := do
  let bytes ← body (align pos alignment)
  return padding pos alignment ++ bytes

mutual
/-- One turn of the loop of `MarshalArgs` behind the padding. -/
def marshalBody (env : MarshalEnv) : MsgArg → Nat → Except QStatus (List UInt8)
  | .invalid, _ => .error .busBadValueType
  | .scalar type value, _ => .ok (env.word type.size value)
  | .string str, _ => .ok (env.stringBytes str)
  | .objectPath str, _ =>
    if (str.getD []).isEmpty then .error .busBadObjPath else .ok (env.stringBytes str)
  | .signature sig, _ => .ok (signatureBytes (sig.getD []))
  | .handle fd, _ => do
    let index ← env.handleIndex fd
    return env.word 4 index
  | .variant val, pos =>
    match makeSignature env.junk [val] with
    | (.ok, sig) => do
      let bytes ← padded val.alignment (marshalBody env val)
        (pos + (signatureBytes sig).length)
      return signatureBytes sig ++ bytes
    | (status, _) => .error status
  | .struct members, pos => marshalArgs env members pos
  | .dictEntry key val, pos => do
    let keyBytes ← padded key.alignment (marshalBody env key) pos
    let valBytes ← padded val.alignment (marshalBody env val) (pos + keyBytes.length)
    return keyBytes ++ valBytes
  | .array none _, _ => .error .busBadValue
  | .array (some elemSig) elements, pos =>
    if elements.all (·.hasSignature env.junk elemSig) then do
      let pad := elemPadding (elemAlignment elemSig) (pos + 4)
      let bytes ← marshalArgs env elements (pos + 4 + pad.length)
      let len ← checkedArraySize bytes.length
      return env.word 4 len ++ (pad ++ bytes)
    else .error .busBadValue
  | .scalarArray type values, pos => do
    let len ← checkedArraySize (type.size * values.length)
    return env.word 4 len ++ (elemPadding type.size (pos + 4) ++ env.scalarBytes values)

def marshalArgs (env : MarshalEnv) : List MsgArg → Nat → Except QStatus (List UInt8)
  | [], _ => .ok []
  | arg :: args, pos => do
    let bytes ← padded arg.alignment (marshalBody env arg) pos
    let rest ← marshalArgs env args (pos + bytes.length)
    return bytes ++ rest
end

/-- `MarshalArgs` of a single argument. -/
def marshalArg (env : MarshalEnv) (arg : MsgArg) (pos : Nat) : Except QStatus (List UInt8) :=
  padded arg.alignment (marshalBody env arg) pos

end AllJoyn.Wire
