import AllJoyn.Lib.Traced
import AllJoyn.Wire.Parse

/-!
The parser of `Message_Parse.cc` with a log of what it does to the message
buffer: the bytes it reads, the end of each value, and for each array the end
that its length word declares next to the end of its last element. Without the
log it is the parser itself (`traceValue_result`).
-/

namespace AllJoyn.Wire

open Lib Lib.Bytes Lib.Result Traced

inductive ParseEvent where
  /-- `count` bytes are read from `pos` on. -/
  | read (pos count : Nat)
  /-- An array is parsed that should end at `declared`. -/
  | array (declared finish : Nat)
  /-- A value is parsed. -/
  | value (finish : Nat)
  deriving DecidableEq, Repr

abbrev ParseTrace (A : Type) := Traced ParseEvent QStatus A

/-- A word and the reading of it. -/
def Buffer.loadWord (buffer : Buffer) (pos width : Nat) : ParseTrace Nat :=
  .log [.read pos width] (.ok (buffer.word pos width))

def Buffer.loadByte (buffer : Buffer) (pos : Nat) : ParseTrace UInt8 :=
  .log [.read pos 1] (.ok (buffer.mem pos))

section

variable (buffer : Buffer)

def traceScalar (type : ScalarType) (pos : Nat) : ParseTrace (MsgArg × Nat) :=
  .log [.read (align pos type.size) type.size] (parseScalar buffer type pos)

/-- The text of a string is read with its terminator once it is known to lie in
front of the end. -/
def traceString (pos : Nat) : ParseTrace (List UInt8 × Nat) := do
  let len ← buffer.loadWord (align pos 4) 4
  if len > maxPacketLen ∨ align pos 4 + 4 + len ≥ buffer.eod then
    .log [] (parseString buffer pos)
  else .log [.read (align pos 4 + 4) (len + 1)] (parseString buffer pos)

def traceSignature (pos : Nat) : ParseTrace (List UInt8 × Nat) := do
  let len ← buffer.loadByte pos
  if pos + 1 + len.toNat ≥ buffer.eod then .log [] (parseSignature buffer pos)
  else .log [.read (pos + 1) (len.toNat + 1)] (parseSignature buffer pos)

def traceHandle (pos : Nat) : ParseTrace (MsgArg × Nat) :=
  .log [.read (align pos 4) 4] (parseHandle buffer pos)

def traceScalarArray (type : ScalarType) (len pos : Nat) : ParseTrace (MsgArg × Nat) :=
  let start := if type.size = 8 then align pos 8 else pos
  if len % type.size ≠ 0 then .fail .busBadLength
  else do
    let (arg, finish) ← .log [.read start len] (parseScalarArray buffer type len pos)
    .log [.array (start + len) finish] (.ok (arg, finish))

/-- The check at the end of `ParseValue`. -/
def traceEnd (result : ParseTrace (MsgArg × Signature × Nat)) :
    ParseTrace (MsgArg × Signature × Nat) := do
  let (arg, sig, pos) ← result
  if pos > buffer.eod then .fail .busBadSignature else .log [.value pos] (.ok (arg, sig, pos))

/-- A value whose type is a single character of the signature. -/
def traceBasic (sig : Signature) (result : ParseTrace (MsgArg × Nat)) :
    ParseTrace (MsgArg × Signature × Nat) := do
  let (arg, pos) ← result
  return (arg, sig, pos)

def traceText (make : List UInt8 → MsgArg) (result : ParseTrace (List UInt8 × Nat)) :
    ParseTrace (MsgArg × Nat) := do
  let (text, pos) ← result
  return (make text, pos)

mutual
/-- `_Message::ParseValue`. -/
def traceValue : Nat → Signature → Bool → Nat → ParseTrace (MsgArg × Signature × Nat)
  | 0, _, _, _ => .fail .fail
  | _ + 1, [], _, _ => .fail .busBadValueType
  | fuel + 1, char :: sig, arrayElem, pos =>
    traceEnd buffer
      (match TypeId.ofChar char with
      | .scalar type => traceBasic sig (traceScalar buffer type pos)
      | .string => traceBasic sig (traceText (fun str => .string (some str)) (traceString buffer pos))
      | .objectPath =>
        traceBasic sig (traceText (fun str => .objectPath (some str)) (traceString buffer pos))
      | .signature =>
        traceBasic sig
          (traceText (fun str => .signature (some str)) (traceSignature buffer pos))
      | .handle => traceBasic sig (traceHandle buffer pos)
      | .variant => traceBasic sig (traceVariant fuel pos)
      | .array => traceArray fuel sig pos
      | .structOpen => traceStruct fuel sig pos
      | .dictEntryOpen =>
        if arrayElem then traceDictEntry fuel sig pos else .fail .busBadSignature
      | _ => .fail .busBadValueType)

/-- `_Message::ParseVariant`. The signature is read with its terminator. -/
def traceVariant : Nat → Nat → ParseTrace (MsgArg × Nat)
  | 0, _ => .fail .fail
  | fuel + 1, pos => do
    let len ← buffer.loadByte pos
    if pos + 1 + len.toNat ≥ buffer.eod then .fail .busBadLength
    else do
      let nul ← .log [.read (pos + 1) (len.toNat + 1)] (.ok (buffer.mem (pos + 1 + len.toNat)))
      if nul ≠ 0 then .fail .busBadSignature
      else do
        let (val, sig, pos) ← traceValue fuel (cString (read buffer.mem (pos + 1) len.toNat))
          false (pos + 1 + len.toNat + 1)
        if sig ≠ [] then .fail .busBadSignature else return (.variant val, pos)

/-- `_Message::ParseArray`. -/
def traceArray : Nat → Signature → Nat → ParseTrace (MsgArg × Signature × Nat)
  | 0, _, _ => .fail .fail
  | fuel + 1, sig, pos => do
    let (rest, _) ← .log [] (parseContainerSignature .array sig)
    let len ← buffer.loadWord (align pos 4) 4
    let pos := align pos 4 + 4
    if len > maxArrayLen ∨ len + pos > buffer.eod then .fail .busBadLength
    else
      match TypeId.ofChar (sig.headD 0) with
      | .scalar type => traceBasic rest (traceScalarArray buffer type len pos)
      | elemId => do
        let elemSig := sig.take (sig.length - rest.length)
        let pos :=
          if elemId = .structOpen ∨ elemId = .dictEntryOpen then align pos 8 else pos
        let (elements, finish) ← traceElements fuel elemSig (pos + len) pos
        .log [.array (pos + len) finish] (.ok (setElements elemSig elements, rest, finish))

/-- The loop of `ParseArray` over the bytes of the elements. -/
def traceElements : Nat → Signature → Nat → Nat → ParseTrace (List MsgArg × Nat)
  | 0, _, _, _ => .fail .fail
  | fuel + 1, elemSig, endOfArray, pos =>
    if pos < endOfArray then do
      let (element, _, pos) ← traceValue fuel elemSig true pos
      let (elements, pos) ← traceElements fuel elemSig endOfArray pos
      return (element :: elements, pos)
    else return ([], pos)

/-- `_Message::ParseStruct`. -/
def traceStruct : Nat → Signature → Nat → ParseTrace (MsgArg × Signature × Nat)
  | 0, _, _ => .fail .fail
  | fuel + 1, sig, pos => do
    let (rest, numMembers) ← .log [] (parseContainerSignature .struct sig)
    let (members, _, pos) ← traceValues fuel numMembers sig (align pos 8)
    return (.struct members, rest, pos)

/-- `_Message::ParseDictEntry`. -/
def traceDictEntry : Nat → Signature → Nat → ParseTrace (MsgArg × Signature × Nat)
  | 0, _, _ => .fail .fail
  | fuel + 1, sig, pos => do
    let (rest, _) ← .log [] (parseContainerSignature .dictEntry sig)
    let (key, sig, pos) ← traceValue fuel sig false (align pos 8)
    let (val, _, pos) ← traceValue fuel sig false pos
    return (.dictEntry key val, rest, pos)

/-- `count` values in sequence. -/
def traceValues : Nat → Nat → Signature → Nat → ParseTrace (List MsgArg × Signature × Nat)
  | 0, _, _, _ => .fail .fail
  | _ + 1, 0, sig, pos => return ([], sig, pos)
  | fuel + 1, count + 1, sig, pos => do
    let (arg, sig, pos) ← traceValue fuel sig false pos
    let (args, sig, pos) ← traceValues fuel count sig pos
    return (arg :: args, sig, pos)
end

/-- The body of `UnmarshalArgs` behind the security checks, for a body that
ends at `bodyEnd`. -/
def traceArgs (fuel : Nat) (sig : Signature) (pos bodyEnd : Nat) :
    ParseTrace (List MsgArg × Nat) := do
  let (args, _, pos) ← traceValues buffer fuel (countCompleteTypes sig) sig pos
  if pos ≠ bodyEnd then .fail .busBadSignature else return (args, pos)

end

/-! ### The parser without the log -/

section

variable (buffer : Buffer)

theorem traceString_result (pos : Nat) :
    (traceString buffer pos).result = parseString buffer pos := by
  change (ite _ _ _ : ParseTrace _).result = _
  split <;> rfl

theorem traceSignature_result (pos : Nat) :
    (traceSignature buffer pos).result = parseSignature buffer pos := by
  change (ite _ _ _ : ParseTrace _).result = _
  split <;> rfl

theorem traceScalarArray_result (type : ScalarType) (len pos : Nat) :
    (traceScalarArray buffer type len pos).result = parseScalarArray buffer type len pos := by
  unfold traceScalarArray
  dsimp only
  split
  · next hlen => rw [parseScalarArray, if_pos hlen]; rfl
  · simp only [result_bind]
    cases parseScalarArray buffer type len pos <;> rfl

theorem traceEnd_result (result : ParseTrace (MsgArg × Signature × Nat)) :
    (traceEnd buffer result).result = checkEnd buffer result.result := by
  simp only [traceEnd, result_bind]
  cases result.result with
  | error status => rfl
  | ok value =>
    change (ite _ _ _ : ParseTrace _).result = ite _ _ _
    split <;> rfl

theorem traceBasic_result (sig : Signature) (result : ParseTrace (MsgArg × Nat)) :
    (traceBasic sig result).result = basic sig result.result := by
  simp only [traceBasic, result_bind]
  cases result.result <;> rfl

theorem traceText_result (make : List UInt8 → MsgArg) (result : ParseTrace (List UInt8 × Nat)) :
    (traceText make result).result =
      result.result.map fun (text, pos) => (make text, pos) := by
  simp only [traceText, result_bind]
  cases result.result <;> rfl

mutual
/-- The traced parser computes what the parser computes. -/
theorem traceValue_result : ∀ (fuel : Nat) (sig : Signature) (arrayElem : Bool) (pos : Nat),
    (traceValue buffer fuel sig arrayElem pos).result = parseValue buffer fuel sig arrayElem pos
  | 0, _, _, _ => by rw [traceValue, parseValue]; rfl
  | _ + 1, [], _, _ => by rw [traceValue, parseValue]; rfl
  | fuel + 1, char :: sig, arrayElem, pos => by
    rw [traceValue, parseValue, traceEnd_result]
    congr 1
    generalize TypeId.ofChar char = id
    cases id with
    | scalar type => exact traceBasic_result sig _
    | string | objectPath => rw [traceBasic_result, traceText_result, traceString_result]
    | signature => rw [traceBasic_result, traceText_result, traceSignature_result]
    | handle => exact traceBasic_result sig _
    | variant => rw [traceBasic_result, traceVariant_result fuel]
    | array => exact traceArray_result fuel sig pos
    | structOpen => exact traceStruct_result fuel sig pos
    | dictEntryOpen =>
      cases arrayElem with
      | false => rfl
      | true => exact traceDictEntry_result fuel sig pos
    | _ => rfl

theorem traceVariant_result : ∀ (fuel pos : Nat),
    (traceVariant buffer fuel pos).result = parseVariant buffer fuel pos
  | 0, _ => by rw [traceVariant, parseVariant]; rfl
  | fuel + 1, pos => by
    rw [traceVariant, parseVariant]
    simp only [Buffer.loadByte, result_bind, result_log, ok_bind]
    split
    · rfl
    simp only [result_bind, result_log, ok_bind]
    split
    · rfl
    simp only [result_bind, traceValue_result fuel]
    congr 1
    funext value
    split <;> rfl

theorem traceArray_result : ∀ (fuel : Nat) (sig : Signature) (pos : Nat),
    (traceArray buffer fuel sig pos).result = parseArray buffer fuel sig pos
  | 0, _, _ => by rw [traceArray, parseArray]; rfl
  | fuel + 1, sig, pos => by
    rw [traceArray, parseArray]
    simp only [result_bind, result_log, Buffer.loadWord, ok_bind]
    congr 1
    funext scanned
    split
    · rfl
    generalize TypeId.ofChar (sig.headD 0) = id
    cases id with
    | scalar type => rw [traceBasic_result, traceScalarArray_result]
    | _ =>
      simp only [result_bind, traceElements_result fuel]
      rfl

theorem traceElements_result : ∀ (fuel : Nat) (elemSig : Signature) (endOfArray pos : Nat),
    (traceElements buffer fuel elemSig endOfArray pos).result =
      parseElements buffer fuel elemSig endOfArray pos
  | 0, _, _, _ => by rw [traceElements, parseElements]; rfl
  | fuel + 1, elemSig, endOfArray, pos => by
    rw [traceElements, parseElements]
    split
    · simp only [result_bind, traceValue_result fuel, traceElements_result fuel]
      rfl
    · rfl

theorem traceStruct_result : ∀ (fuel : Nat) (sig : Signature) (pos : Nat),
    (traceStruct buffer fuel sig pos).result = parseStruct buffer fuel sig pos
  | 0, _, _ => by rw [traceStruct, parseStruct]; rfl
  | fuel + 1, sig, pos => by
    rw [traceStruct, parseStruct]
    simp only [result_bind, traceValues_result fuel]
    rfl

theorem traceDictEntry_result : ∀ (fuel : Nat) (sig : Signature) (pos : Nat),
    (traceDictEntry buffer fuel sig pos).result = parseDictEntry buffer fuel sig pos
  | 0, _, _ => by rw [traceDictEntry, parseDictEntry]; rfl
  | fuel + 1, sig, pos => by
    rw [traceDictEntry, parseDictEntry]
    simp only [result_bind, traceValue_result fuel]
    rfl

theorem traceValues_result : ∀ (fuel count : Nat) (sig : Signature) (pos : Nat),
    (traceValues buffer fuel count sig pos).result = parseValues buffer fuel count sig pos
  | 0, _, _, _ => by rw [traceValues, parseValues]; rfl
  | _ + 1, 0, _, _ => by rw [traceValues, parseValues]; rfl
  | fuel + 1, count + 1, sig, pos => by
    rw [traceValues, parseValues]
    simp only [result_bind, traceValue_result fuel, traceValues_result fuel]
    rfl
end

theorem traceArgs_result (fuel : Nat) (sig : Signature) (pos : Nat) :
    (traceArgs buffer fuel sig pos buffer.eod).result = unmarshalArgs buffer fuel sig pos := by
  simp only [traceArgs, unmarshalArgs, result_bind, traceValues_result]
  congr 1
  funext value
  split <;> rfl

end

end AllJoyn.Wire
