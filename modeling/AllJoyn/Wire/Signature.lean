import AllJoyn.Wire.MsgArg

/-!
Signatures (`SignatureUtils.cc`): composing the signature of argument values,
and scanning a complete type from a signature. The buffer a signature is
composed in is not initialised; `junk` is what it held before, and the model
keeps the characters below `len`.
-/

namespace AllJoyn.Wire

open Lib.Bytes

/-! ### MakeSignature -/

section MakeSignature

variable (junk : Nat → UInt8)

/-- The check at the entry of a nested `MakeSignature`. -/
def enter (compose : Signature → QStatus × Signature) (sig : Signature) : QStatus × Signature :=
  if sig.length > 254 then (.busBadValue, sig) else compose sig

/-- The end of the loop body: the length check, then the last character. -/
def closeType (typeChar : UInt8) : QStatus × Signature → QStatus × Signature
  | (status, sig) =>
    if sig.length > 254 then (.busBadValue, sig)
    else if status = .ok then (.ok, sig ++ [typeChar])
    else (status, sig)

/-- The characters behind an `a`: the element signature where it fits, and
whatever the buffer held otherwise. -/
def elemChars (elemSig sig : Signature) : Signature :=
  if sig.length + elemSig.length < 254 then elemSig
  else read junk sig.length elemSig.length

mutual
/-- One turn of the loop of `MakeSignature`. -/
def composeValue : MsgArg → Signature → QStatus × Signature
  | .invalid, sig => closeType 0 (.busBadValueType, sig)
  | .scalar type _, sig => closeType type.char (.ok, sig)
  | .string _, sig => closeType TypeId.string.char (.ok, sig)
  | .objectPath _, sig => closeType TypeId.objectPath.char (.ok, sig)
  | .signature _, sig => closeType TypeId.signature.char (.ok, sig)
  | .handle _, sig => closeType TypeId.handle.char (.ok, sig)
  | .variant _, sig => closeType TypeId.variant.char (.ok, sig)
  | .struct members, sig =>
    closeType TypeId.structClose.char
      (if members.isEmpty then (.ok, sig ++ [TypeId.structOpen.char])
      else enter (composeValues (members.length % 256) members)
        (sig ++ [TypeId.structOpen.char]))
  | .dictEntry key val, sig =>
    closeType TypeId.dictEntryClose.char
      (match enter (composeValue key) (sig ++ [TypeId.dictEntryOpen.char]) with
      | (.ok, sig) => enter (composeValue val) sig
      | failed => failed)
  | .array elemSig _, sig =>
    -- the last character is taken back from the buffer and written again
    let sig := sig ++ [TypeId.array.char]
    let sig := sig ++ elemChars junk (elemSig.getD []) sig
    closeType (sig.getLastD 0) (.ok, sig.dropLast)
  | .scalarArray type _, sig => closeType type.char (.ok, sig ++ [TypeId.array.char])

/-- The loop of `MakeSignature` over `numValues` values. -/
def composeValues : Nat → List MsgArg → Signature → QStatus × Signature
  | 0, _, sig => (.ok, sig)
  | _ + 1, [], sig => (.ok, sig)
  | numValues + 1, value :: values, sig =>
    match composeValue value sig with
    | (.ok, sig) => composeValues numValues values sig
    | failed => failed
end

/-- `SignatureUtils::MakeSignature` from an empty buffer; the number of values
is passed in a byte. -/
def makeSignature (values : List MsgArg) : QStatus × Signature :=
  composeValues junk (values.length % 256) values []

def MsgArg.hasSignature (arg : MsgArg) (signature : Signature) : Bool :=
  cString (makeSignature junk [arg]).2 == signature

end MakeSignature

/-! ### ParseContainerSignature -/

inductive Container where
  | struct
  | dictEntry
  | array
  deriving DecidableEq, Repr

/-- `ContainerStack`: an open container and the members seen in it. -/
structure Frame where
  typeId : Container
  members : Nat
  deriving DecidableEq, Repr

def Frame.addMember (frame : Frame) : Frame :=
  { frame with members := (frame.members + 1) % 256 }

/-- The local state of `ParseContainerSignature`; `numMembers` is what it
stores in the container. -/
structure Scan where
  outer : Frame
  below : List Frame
  structDepth : Nat
  arrayDepth : Nat
  numMembers : Nat
  deriving DecidableEq, Repr

def Scan.addMember (scan : Scan) : Scan := { scan with outer := scan.outer.addMember }

def Scan.push (scan : Scan) (typeId : Container) : Scan :=
  { scan with outer := ⟨typeId, 0⟩, below := scan.outer :: scan.below }

/-- `PopContainer`: the container closed is a member of the one around it. -/
def Scan.pop (scan : Scan) : Scan :=
  match scan.below with
  | [] => scan.addMember
  | frame :: below => { scan with outer := frame.addMember, below := below }

/-- The inner loop: an array is complete with its one element type. -/
def closeArrays : Frame → List Frame → Nat → Frame × List Frame × Nat
  | ⟨.array, 1⟩, [], arrayDepth + 1 => (Frame.addMember ⟨.array, 1⟩, [], arrayDepth)
  | ⟨.array, 1⟩, frame :: below, arrayDepth + 1 => closeArrays frame.addMember below arrayDepth
  | outer, below, arrayDepth => (outer, below, arrayDepth)

def Scan.closeArrays (scan : Scan) : Scan :=
  let (outer, below, arrayDepth) := Wire.closeArrays scan.outer scan.below scan.arrayDepth
  { scan with outer := outer, below := below, arrayDepth := arrayDepth }

def Scan.isComplete (scan : Scan) : Bool := scan.structDepth + scan.arrayDepth = 0

/-- One turn of the loop for a type other than `{`, which reads two characters. -/
def scanType (container : Container) (scan : Scan) : TypeId → Except QStatus Scan
  | .wildcard | .scalar _ | .string | .objectPath | .signature | .variant | .struct | .handle =>
    .ok scan.addMember
  | .array =>
    if scan.arrayDepth + 1 > 32 then .error .busBadSignature
    else .ok { scan.push .array with arrayDepth := scan.arrayDepth + 1 }
  | .structOpen =>
    if scan.structDepth + 1 > 32 then .error .busBadSignature
    else .ok { scan.push .struct with structDepth := scan.structDepth + 1 }
  | .structClose =>
    if scan.outer.typeId = .struct ∧ scan.outer.members > 0 then
      .ok { scan.pop with
        structDepth := scan.structDepth - 1
        numMembers :=
          if scan.structDepth - 1 = 0 ∧ container = .struct then scan.outer.members
          else scan.numMembers }
    else .error .busBadSignature
  | .dictEntryClose =>
    if scan.outer.typeId = .dictEntry ∧ scan.outer.members = 2 then
      .ok { scan.pop with structDepth := scan.structDepth - 1 }
    else .error .busBadSignature
  | .dictEntryOpen | .invalid | .dictEntry | .unknown => .error .busBadSignature

/-- `{` and its key, which must stand directly inside an array. -/
def scanDictEntry (scan : Scan) (key : UInt8) : Except QStatus Scan :=
  if scan.structDepth + 1 > 32 then .error .busBadSignature
  else if scan.outer.typeId = .array ∧ (TypeId.ofChar key).isBasic then
    .ok { (scan.push .dictEntry).addMember with structDepth := scan.structDepth + 1 }
  else .error .busBadSignature

/-- The loop of `ParseContainerSignature`; the end of the signature is an
error, since a container is still open there. -/
def scanSignature (container : Container) : Signature → Scan → Except QStatus (Signature × Scan)
  | [], _ => .error .busBadSignature
  | char :: rest, scan =>
    if TypeId.ofChar char = .dictEntryOpen then
      match rest with
      | [] => .error .busBadSignature
      | key :: rest => do
        let scan ← scanDictEntry scan key
        if scan.closeArrays.isComplete then .ok (rest, scan.closeArrays)
        else scanSignature container rest scan.closeArrays
    else do
      let scan ← scanType container scan (TypeId.ofChar char)
      if scan.closeArrays.isComplete then .ok (rest, scan.closeArrays)
      else scanSignature container rest scan.closeArrays

/-- `SignatureUtils::ParseContainerSignature`: the signature behind the
container and the number of members of a struct. -/
def parseContainerSignature (container : Container) (sig : Signature) :
    Except QStatus (Signature × Nat) := do
  let scan : Scan :=
    { outer := ⟨container, 0⟩
      below := []
      structDepth := if container = .array then 0 else 1
      arrayDepth := if container = .array then 1 else 0
      numMembers := 0 }
  let (rest, scan) ← scanSignature container sig scan
  return (rest, scan.numMembers)

def parseCompleteType : Signature → Except QStatus Signature
  | [] => .error .busBadSignature
  | char :: rest =>
    match TypeId.ofChar char with
    | .scalar _ | .string | .objectPath | .signature | .variant | .struct | .wildcard
    | .handle => .ok rest
    | .dictEntryOpen => (parseContainerSignature .dictEntry rest).map Prod.fst
    | .structOpen => (parseContainerSignature .struct rest).map Prod.fst
    | .array => (parseContainerSignature .array rest).map Prod.fst
    | _ => .error .busBadSignature

/-- The loop of `CountCompleteTypes`. A complete type takes at least one
character, so the length of the signature bounds the turns. -/
def countTypes : Nat → Signature → Nat
  | 0, _ => 0
  | _ + 1, [] => 0
  | turns + 1, sig =>
    match parseCompleteType sig with
    | .ok rest => countTypes turns rest + 1
    | .error _ => 0

/-- `SignatureUtils::CountCompleteTypes`; the count is a byte. -/
def countCompleteTypes (sig : Signature) : Nat := countTypes sig.length sig % 256

/-! ### Elements of an array -/

/-- The status of `AllJoynArray::SetElements`. -/
def elementsStatus (elemSig : Signature) (elements : List MsgArg) : QStatus :=
  if countCompleteTypes elemSig ≠ 1 then .busBadSignature
  else if ∀ element ∈ elements, element.typeId = (elements.headD .invalid).typeId then .ok
  else .busBadValue

/-- What `AllJoynArray::SetElements` leaves behind. -/
def setElements (elemSig : Signature) (elements : List MsgArg) : MsgArg :=
  if elementsStatus elemSig elements = .ok then .array (some elemSig) elements
  else .array none []

end AllJoyn.Wire
