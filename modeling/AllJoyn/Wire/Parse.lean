import AllJoyn.Wire.Signature

/-!
Parsing of message arguments (`Message_Parse.cc`). The parser walks over the
memory of the message and over the signature at once; a signature that is read
to its end continues with NUL. Recursion is on fuel, which the source has no
counterpart of: the results hold for every sufficiently large fuel.
-/

namespace AllJoyn.Wire

open Lib.Bytes

/-- The received message: its memory, the end of the body (`bufEOD`), whether
it has the other byte order than the host, and the handles that came with it. -/
structure Buffer where
  mem : Nat → UInt8
  eod : Nat
  endianSwap : Bool
  handles : List Nat

def Buffer.word (buffer : Buffer) (pos width : Nat) : Nat :=
  wordValue buffer.endianSwap (read buffer.mem pos width)

/-- A value of fixed size at an aligned position. -/
def Buffer.scalarAt (buffer : Buffer) (type : ScalarType) (pos : Nat) :
    Except QStatus (Fin type.range) :=
  if hrange : buffer.word pos type.size < type.range then
    .ok ⟨buffer.word pos type.size, hrange⟩
  else .error .busBadValue

def parseScalar (buffer : Buffer) (type : ScalarType) (pos : Nat) :
    Except QStatus (MsgArg × Nat) := do
  let value ← buffer.scalarAt type (align pos type.size)
  return (.scalar type value, align pos type.size + type.size)

/-- Strings and object paths. -/
def parseString (buffer : Buffer) (pos : Nat) : Except QStatus (List UInt8 × Nat) :=
  let len := buffer.word (align pos 4) 4
  let str := align pos 4 + 4
  if len > maxPacketLen then .error .busBadLength
  else if str + len ≥ buffer.eod then .error .busBadLength
  else if buffer.mem (str + len) ≠ 0 then .error .busNotNulTerminated
  else .ok (read buffer.mem str len, str + len + 1)

def parseSignature (buffer : Buffer) (pos : Nat) : Except QStatus (List UInt8 × Nat) :=
  let len := (buffer.mem pos).toNat
  if pos + 1 + len ≥ buffer.eod then .error .busBadLength
  else if buffer.mem (pos + 1 + len) ≠ 0 then .error .busNotNulTerminated
  else .ok (read buffer.mem (pos + 1) len, pos + 1 + len + 1)

def parseHandle (buffer : Buffer) (pos : Nat) : Except QStatus (MsgArg × Nat) :=
  match buffer.handles[buffer.word (align pos 4) 4]? with
  | none => .error .busNoSuchHandle
  | some fd => .ok (.handle fd, align pos 4 + 4)

/-- Values of fixed size, one after the other. -/
def parseScalars (buffer : Buffer) (type : ScalarType) :
    Nat → Nat → Except QStatus (List (Fin type.range))
  | 0, _ => .ok []
  | count + 1, pos => do
    let value ← buffer.scalarAt type pos
    let values ← parseScalars buffer type count (pos + type.size)
    return value :: values

/-- The cases of `ParseArray` for elements of fixed size. -/
def parseScalarArray (buffer : Buffer) (type : ScalarType) (len pos : Nat) :
    Except QStatus (MsgArg × Nat) :=
  if len % type.size ≠ 0 then .error .busBadLength
  else do
    let pos := if type.size = 8 then align pos 8 else pos
    let values ← parseScalars buffer type (len / type.size) pos
    return (.scalarArray type values, pos + len)

/-- The check at the end of `ParseValue`. -/
def checkEnd (buffer : Buffer) (result : Except QStatus (MsgArg × Signature × Nat)) :
    Except QStatus (MsgArg × Signature × Nat) := do
  let (arg, sig, pos) ← result
  if pos > buffer.eod then .error .busBadSignature else .ok (arg, sig, pos)

/-- A value whose type is a single character of the signature. -/
def basic (sig : Signature) (result : Except QStatus (MsgArg × Nat)) :
    Except QStatus (MsgArg × Signature × Nat) :=
  result.map fun (arg, pos) => (arg, sig, pos)

mutual
def parseValue (buffer : Buffer) :
    Nat → Signature → Bool → Nat → Except QStatus (MsgArg × Signature × Nat)
  | 0, _, _, _ => .error .fail
  | _ + 1, [], _, _ => .error .busBadValueType
  | fuel + 1, char :: sig, arrayElem, pos =>
    checkEnd buffer
      (match TypeId.ofChar char with
      | .scalar type => basic sig (parseScalar buffer type pos)
      | .string =>
        basic sig ((parseString buffer pos).map fun (str, pos) => (.string (some str), pos))
      | .objectPath =>
        basic sig ((parseString buffer pos).map fun (str, pos) => (.objectPath (some str), pos))
      | .signature =>
        basic sig
          ((parseSignature buffer pos).map fun (str, pos) => (.signature (some str), pos))
      | .handle => basic sig (parseHandle buffer pos)
      | .variant => basic sig (parseVariant buffer fuel pos)
      | .array => parseArray buffer fuel sig pos
      | .structOpen => parseStruct buffer fuel sig pos
      | .dictEntryOpen =>
        if arrayElem then parseDictEntry buffer fuel sig pos else .error .busBadSignature
      | _ => .error .busBadValueType)

def parseVariant (buffer : Buffer) : Nat → Nat → Except QStatus (MsgArg × Nat)
  | 0, _ => .error .fail
  | fuel + 1, pos =>
    let len := (buffer.mem pos).toNat
    if pos + 1 + len ≥ buffer.eod then .error .busBadLength
    else if buffer.mem (pos + 1 + len) ≠ 0 then .error .busBadSignature
    else do
      let (val, sig, pos) ← parseValue buffer fuel (cString (read buffer.mem (pos + 1) len))
        false (pos + 1 + len + 1)
      if sig ≠ [] then .error .busBadSignature else .ok (.variant val, pos)

def parseArray (buffer : Buffer) :
    Nat → Signature → Nat → Except QStatus (MsgArg × Signature × Nat)
  | 0, _, _ => .error .fail
  | fuel + 1, sig, pos => do
    let (rest, _) ← parseContainerSignature .array sig
    let len := buffer.word (align pos 4) 4
    let pos := align pos 4 + 4
    if len > maxArrayLen ∨ len + pos > buffer.eod then .error .busBadLength
    else
      match TypeId.ofChar (sig.headD 0) with
      | .scalar type => basic rest (parseScalarArray buffer type len pos)
      | elemId => do
        let elemSig := sig.take (sig.length - rest.length)
        let pos :=
          if elemId = .structOpen ∨ elemId = .dictEntryOpen then align pos 8 else pos
        let (elements, pos) ← parseElements buffer fuel elemSig (pos + len) pos
        return (setElements elemSig elements, rest, pos)

/-- The loop of `ParseArray` over the bytes of the elements. -/
def parseElements (buffer : Buffer) :
    Nat → Signature → Nat → Nat → Except QStatus (List MsgArg × Nat)
  | 0, _, _, _ => .error .fail
  | fuel + 1, elemSig, endOfArray, pos =>
    if pos < endOfArray then do
      let (element, _, pos) ← parseValue buffer fuel elemSig true pos
      let (elements, pos) ← parseElements buffer fuel elemSig endOfArray pos
      return (element :: elements, pos)
    else .ok ([], pos)

def parseStruct (buffer : Buffer) :
    Nat → Signature → Nat → Except QStatus (MsgArg × Signature × Nat)
  | 0, _, _ => .error .fail
  | fuel + 1, sig, pos => do
    let (rest, numMembers) ← parseContainerSignature .struct sig
    let (members, _, pos) ← parseValues buffer fuel numMembers sig (align pos 8)
    return (.struct members, rest, pos)

def parseDictEntry (buffer : Buffer) :
    Nat → Signature → Nat → Except QStatus (MsgArg × Signature × Nat)
  | 0, _, _ => .error .fail
  | fuel + 1, sig, pos => do
    let (rest, _) ← parseContainerSignature .dictEntry sig
    let (key, sig, pos) ← parseValue buffer fuel sig false (align pos 8)
    let (val, _, pos) ← parseValue buffer fuel sig false pos
    return (.dictEntry key val, rest, pos)

/-- `count` values in sequence: the members of a struct, or the arguments of
the message. -/
def parseValues (buffer : Buffer) :
    Nat → Nat → Signature → Nat → Except QStatus (List MsgArg × Signature × Nat)
  | 0, _, _, _ => .error .fail
  | _ + 1, 0, sig, pos => .ok ([], sig, pos)
  | fuel + 1, count + 1, sig, pos => do
    let (arg, sig, pos) ← parseValue buffer fuel sig false pos
    let (args, sig, pos) ← parseValues buffer fuel count sig pos
    return (arg :: args, sig, pos)
end

/-- The body of `UnmarshalArgs` behind the security checks: the arguments the
signature announces must take up the whole body. -/
def unmarshalArgs (buffer : Buffer) (fuel : Nat) (sig : Signature) (pos : Nat) :
    Except QStatus (List MsgArg × Nat) := do
  let (args, _, pos) ← parseValues buffer fuel (countCompleteTypes sig) sig pos
  if pos ≠ buffer.eod then .error .busBadSignature else .ok (args, pos)

end AllJoyn.Wire
