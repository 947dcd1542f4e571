import AllJoyn.ThinClient.Types
import AllJoyn.Wire.Encoding

/-!
Marshalling of arguments by the thin client (`aj_msg.c`). The arguments are
written one call after the other into the transmit buffer behind the header;
containers are opened and closed, and the length of an array is written when
it is closed. A pointer into a signature is the characters from there on.
-/

namespace AllJoyn.ThinClient

open Lib.Bytes Wire

/-- `AJ_Arg`. The memory `val` points to is the caller's; the pointer to the
length of an open array is the offset `lenOffset` in the transmit buffer. -/
structure AjArg where
  typeId : UInt8
  arrayFlag : Bool
  len : Nat
  val : List UInt8
  sigPtr : Signature
  lenOffset : Nat

def initArg (typeId : UInt8) (val : List UInt8) : AjArg := ⟨typeId, false, 0, val, [], 0⟩

/-- `AJ_InitArg` of a basic type; the length is a 16-bit number. -/
def ajInitArg (typeId : UInt8) (arrayFlag : Bool) (val : List UInt8) (len : Nat) : AjArg :=
  ⟨typeId, arrayFlag, len % 2 ^ 16, val, [], 0⟩

/-- `AJ_Message` behind its header, with the transmit buffer: what is written
from its start on, and its size. The containers that are open stand innermost
first. -/
structure TxMessage where
  signature : Signature
  sigOffset : Nat
  varOffset : Nat
  bodyBytes : UInt16
  outer : List AjArg
  written : List UInt8
  bufSize : UInt16

/-- `WriteBytes` once there is a header: what does not fit is refused. -/
def writeBytes (msg : TxMessage) (data : List UInt8) (pad : Nat) : Except AjStatus TxMessage :=
  if data.length + pad > msg.bufSize.toNat - msg.written.length then .error .errResources
  else .ok { msg with written := msg.written ++ (List.replicate pad 0 ++ data) }

/-- `MarshalContainer`: the signature behind the container, and the container
with its signature and the place of its length. -/
def marshalContainer (msg : TxMessage) (sig : Signature) (arg : AjArg) (pad : Nat) :
    Except AjStatus (TxMessage × Signature × AjArg) := do
  let arg := { arg with sigPtr := sig.drop 1 }
  if sig.headD 0 = TypeId.array.char then
    let msg ← writeBytes msg [] (pad % 256 + 4)
    let arg := { arg with lenOffset := msg.written.length - 4 }
    let msg ← writeBytes msg [] (padForType (arg.sigPtr.headD 0) msg.written.length)
    return (msg, sig.drop (completeTypeSigLen sig), arg)
  else
    let msg ← writeBytes msg [] (pad % 256)
    return (msg, sig.drop (completeTypeSigLen sig), arg)

/-- The length of a string argument: the one it comes with, or `strlen`. -/
def AjArg.textLen (arg : AjArg) : Nat :=
  if arg.len ≠ 0 then arg.len else (cString arg.val).length

section

variable (host : Host)

/-- The cases of `Marshal` for strings, object paths, signatures and the
signatures of variants. -/
def marshalText (msg : TxMessage) (sig : Signature) (arg : AjArg) (pad : Nat) :
    Except AjStatus (TxMessage × Signature × AjArg) := do
  let sz := arg.textLen
  let msg ←
    if alignment arg.typeId = 1 then
      if sz > 255 then .error .errMarshal else writeBytes msg [UInt8.ofNat sz] pad
    else writeBytes msg (wordBytes host.swap 4 sz) pad
  let msg ← writeBytes msg (arg.val.take sz) 0
  let msg ← writeBytes msg [] 1
  if arg.typeId = TypeId.variant.char then
    return ({ msg with varOffset := (sz + 1) % 256 }, sig.drop 1, arg)
  else return (msg, sig.drop 1, arg)

def marshal (msg : TxMessage) (sig : Signature) (arg : AjArg) :
    Except AjStatus (TxMessage × Signature × AjArg) :=
  let typeId := sig.headD 0
  let pad := padForType typeId msg.written.length
  if isScalarType arg.typeId then
    if arg.arrayFlag then
      if typeId ≠ TypeId.array.char ∨ (sig.drop 1).headD 0 ≠ arg.typeId then .error .errMarshal
      else do
        let msg ← writeBytes msg (wordBytes host.swap 4 arg.len) pad
        let msg ← writeBytes msg (arg.val.take arg.len) (padForType arg.typeId msg.written.length)
        return (msg, sig.drop 2, arg)
    else if typeId ≠ arg.typeId then .error .errMarshal
    else do
      let msg ← writeBytes msg (arg.val.take (alignment typeId)) pad
      return (msg, sig.drop 1, arg)
  else if isStringOrVariant typeId then
    if typeId ≠ arg.typeId then .error .errMarshal else marshalText host msg sig arg pad
  else if isContainerType typeId then
    if typeId ≠ arg.typeId then .error .errMarshal else marshalContainer msg sig arg pad
  else .error .errMarshal

/-- The signature that `AJ_MarshalArg` takes the next type from: that of a
variant in the buffer, that of the innermost container, or the message's. -/
def TxMessage.nextSig (msg : TxMessage) : Signature :=
  if msg.varOffset ≠ 0 then
    cString (msg.written.drop (msg.written.length - msg.varOffset))
  else
    match msg.outer with
    | container :: _ => container.sigPtr
    | [] => msg.signature.drop msg.sigOffset

/-- The message once a type is taken and `rest` of the signature is left. The
signature of an array stays for its next element. -/
def TxMessage.advance (msg : TxMessage) (rest : Signature) : TxMessage :=
  if msg.varOffset ≠ 0 then { msg with varOffset := 0 }
  else
    match msg.outer with
    | container :: containers =>
      if container.typeId = TypeId.array.char then msg
      else { msg with outer := { container with sigPtr := rest } :: containers }
    | [] => { msg with sigOffset := (msg.signature.length - rest.length) % 256 }

def ajMarshalArg (msg : TxMessage) (arg : AjArg) : Except AjStatus (TxMessage × AjArg) :=
  if msg.sigOffset = 255 then .error .errUnexpected
  else if msg.varOffset = 0 ∧ msg.nextSig = [] then .error .errEndOfData
  else do
    let (next, rest, arg) ← marshal host { msg with varOffset := 0 } msg.nextSig arg
    return ({ msg.advance rest with
      varOffset := next.varOffset
      written := next.written
      bodyBytes := msg.bodyBytes + UInt16.ofNat (next.written.length - msg.written.length) }, arg)

def ajMarshalContainer (msg : TxMessage) (typeId : UInt8) : Except AjStatus TxMessage := do
  let (msg, arg) ← ajMarshalArg host msg (initArg typeId [])
  return { msg with outer := arg :: msg.outer }

/-- The length that `AJ_MarshalCloseContainer` writes for an array: neither
the length field nor the padding behind it counts. -/
def arrayLen (msg : TxMessage) (arg : AjArg) : UInt16 :=
  let len := UInt16.ofNat (msg.written.length - arg.lenOffset) - 4
  if alignment (arg.sigPtr.headD 0) = 8 ∧ arg.lenOffset &&& 4 = 0 ∧ len ≠ 0 then len - 4 else len

/-- `AJ_MarshalCloseContainer` of the innermost container. -/
def ajMarshalCloseContainer (msg : TxMessage) : Except AjStatus TxMessage :=
  match msg.outer with
  | [] => .error .errUnexpected
  | arg :: containers =>
    let msg := { msg with outer := containers }
    if arg.typeId = TypeId.array.char then
      .ok { msg with
        written := overwrite msg.written arg.lenOffset
          (wordBytes host.swap 4 (arrayLen msg arg).toNat) }
    else if arg.typeId = TypeId.structOpen.char ∧
        arg.sigPtr.headD 0 ≠ TypeId.structClose.char then .error .errSignature
    else if arg.typeId = TypeId.dictEntryOpen.char ∧
        arg.sigPtr.headD 0 ≠ TypeId.dictEntryClose.char then .error .errSignature
    else .ok msg

def ajMarshalVariant (msg : TxMessage) (sig : Signature) : Except AjStatus TxMessage :=
  if completeTypeSigLen sig ≠ sig.length then .error .errUnexpected
  else (ajMarshalArg host msg (initArg TypeId.variant.char (sig ++ [0]))).map Prod.fst

/-- A call of an application that marshals arguments. -/
inductive Call where
  | marshalArg (arg : AjArg)
  | marshalContainer (typeId : UInt8)
  | closeContainer
  | marshalVariant (sig : Signature)

/-- The call takes a type of a signature. -/
def Call.takesType : Call → Bool
  | .closeContainer => false
  | _ => true

def Call.run (msg : TxMessage) : Call → Except AjStatus TxMessage
  | .marshalArg arg => (ajMarshalArg host msg arg).map Prod.fst
  | .marshalContainer typeId => ajMarshalContainer host msg typeId
  | .closeContainer => ajMarshalCloseContainer host msg
  | .marshalVariant sig => ajMarshalVariant host msg sig

def runCalls (msg : TxMessage) (calls : List Call) : Except AjStatus TxMessage :=
  calls.foldlM (Call.run host) msg

/-! ### The calls for an argument -/

/-- A string argument: the length is given, or found by the NUL at the end. -/
def IsText (str val : List UInt8) (len : Nat) : Prop :=
  val = str ++ [0] ∧ (len = str.length ∨ len = 0 ∧ ∀ char ∈ str, char ≠ 0)

def scalarCall (type : ScalarType) (value : Fin type.range) : Call :=
  .marshalArg (initArg type.char (wordBytes host.swap type.size value.val))

mutual
/-- An application passes the argument by these calls. An array of scalars may
be passed at once or element by element. -/
def CallsFor : MsgArg → List Call → Prop
  | .scalar type value, calls => calls = [scalarCall host type value]
  | .string str, calls =>
    ∃ val len, IsText (str.getD []) val len ∧
      calls = [.marshalArg (ajInitArg TypeId.string.char false val len)]
  | .objectPath str, calls =>
    ∃ val len, IsText (str.getD []) val len ∧
      calls = [.marshalArg (ajInitArg TypeId.objectPath.char false val len)]
  | .signature sig, calls =>
    ∃ val len, IsText (sig.getD []) val len ∧
      calls = [.marshalArg (ajInitArg TypeId.signature.char false val len)]
  | .variant val, calls => ∃ inner, CallsFor val inner ∧ calls = .marshalVariant val.sig :: inner
  | .struct members, calls =>
    ∃ inner, AllCallsFor members inner ∧
      calls = .marshalContainer TypeId.structOpen.char :: (inner ++ [.closeContainer])
  | .dictEntry key val, calls =>
    ∃ first second, CallsFor key first ∧ CallsFor val second ∧
      calls = .marshalContainer TypeId.dictEntryOpen.char :: (first ++ second ++ [.closeContainer])
  | .array _ elements, calls =>
    ∃ inner, AllCallsFor elements inner ∧
      calls = .marshalContainer TypeId.array.char :: (inner ++ [.closeContainer])
  | .scalarArray type values, calls =>
    calls = [.marshalArg (ajInitArg type.char true (scalarsEncoding host.swap values)
      (type.size * values.length))] ∨
    calls = .marshalContainer TypeId.array.char ::
      (values.map (scalarCall host type) ++ [.closeContainer])
  | .handle _, _ | .invalid, _ => False

def AllCallsFor : List MsgArg → List Call → Prop
  | [], calls => calls = []
  | arg :: args, calls =>
    ∃ first rest, CallsFor arg first ∧ AllCallsFor args rest ∧ calls = first ++ rest
end

end

end AllJoyn.ThinClient
