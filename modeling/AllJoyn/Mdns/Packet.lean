import Mathlib.Algebra.GroupWithZero.Nat
import Mathlib.Data.List.Basic

/-!
The packets of the name service over multicast DNS (`IpNsProtocol.cc`): how
they are written, how long they are expected to be, and how they are read.
Domain names are compressed: the rest of a name that was written before is
replaced by its position. The writer keeps a map from the rests of names to
positions, the computation of the size one of its own, and the reader a map from
positions to the rests of names.
-/

namespace AllJoyn.Mdns

/-- A `qcc::String`. -/
abbrev Str := List UInt8

def str (s : String) : Str := s.toUTF8.toList

def dot : UInt8 := 0x2E

def equals : UInt8 := 0x3D

def underscore : UInt8 := 0x5F

def u16Bytes (v : UInt16) : List UInt8 := [(v >>> 8).toUInt8, v.toUInt8]

def u32Bytes (v : UInt32) : List UInt8 :=
  [(v >>> 24).toUInt8, (v >>> 16).toUInt8, (v >>> 8).toUInt8, v.toUInt8]

def u16OfBytes (high low : UInt8) : UInt16 := high.toUInt16 <<< 8 ||| low.toUInt16

def u32OfBytes (b0 b1 b2 b3 : UInt8) : UInt32 :=
  b0.toUInt32 <<< 24 ||| b1.toUInt32 <<< 16 ||| b2.toUInt32 <<< 8 ||| b3.toUInt32

/-- The conversions of `IPAddress` between addresses and text. -/
structure AddressText where
  stringToIPv4 : Str → Option (Vector UInt8 4)
  ipv4ToString : Vector UInt8 4 → Str
  stringToIPv6 : Str → Option (Vector UInt8 16)
  ipv6ToString : Vector UInt8 16 → Str

/-- Conversions that know no address. -/
def noAddresses : AddressText :=
  ⟨fun _ => none, fun _ => [], fun _ => none, fun _ => []⟩

/-! ### Text fields -/

/-- What follows the last underscore of a key. -/
def afterUnderscore : Str → Option Str
  | [] => none
  | c :: s =>
    match afterUnderscore s with
    | some after => some after
    | none => if c = underscore then some s else none

def charToU8 (c : UInt8) : Nat :=
  if 0x30 ≤ c ∧ c ≤ 0x39 then (c - 0x30).toNat
  else if 0x41 ≤ c ∧ c ≤ 0x46 then 10 + (c - 0x41).toNat
  else if 0x61 ≤ c ∧ c ≤ 0x66 then 10 + (c - 0x61).toNat
  else 255

def isWhite (c : UInt8) : Bool := c ∈ [0x20, 0x09, 0x0A, 0x0D, 0x0B]

/-- The loop of `StringToU32`; a string without a number is 0. -/
def stringToU32Loop (base : Nat) : Str → Bool → UInt32 → UInt32
  | [], isBad, val => if isBad then 0 else val
  | c :: rest, isBad, val =>
    if !isWhite c then
      if charToU8 c ≥ base then 0
      else stringToU32Loop base rest false (val * UInt32.ofNat base + UInt32.ofNat (charToU8 c))
    else if !isBad then val
    else stringToU32Loop base rest isBad val

/-- `StringToU32`, which takes the base from the string. -/
def stringToU32 : Str → UInt32
  | [0x30] => 0
  | 0x30 :: 0x78 :: rest => stringToU32Loop 16 rest true 0
  | 0x30 :: 0x58 :: rest => stringToU32Loop 16 rest true 0
  | 0x30 :: rest => stringToU32Loop 8 rest true 0
  | s => stringToU32Loop 10 s true 0

/-- `MDNSTextRData::Compare`: keys with an underscore are compared by the number
behind it alone. -/
def less (s1 s2 : Str) : Bool :=
  match afterUnderscore s1, afterUnderscore s2 with
  | some n1, some n2 => decide (stringToU32 n1 < stringToU32 n2)
  | _, _ => decide (s1 < s2)

/-- `MDNSTextRData::Fields`, in the order of the map. -/
abbrev Fields := List (Str × Str)

/-- `m_fields[key] = value`. -/
def assign (key value : Str) : Fields → Fields
  | [] => [(key, value)]
  | entry :: rest =>
    if less entry.1 key then entry :: assign key value rest
    else if less key entry.1 then (key, value) :: entry :: rest
    else (entry.1, value) :: rest

def txtvers : Str := str "txtvers"

/-- The fields of a new `MDNSTextRData`. -/
def newFields : Fields := [(txtvers, str "0")]

/-! ### Records -/

/-- The data of a record, by the classes of the source. -/
inductive RData where
  | default
  | text (fields : Fields)
  | a (addr : Str)
  | aaaa (addr : Str)
  | ptr (name : Str)
  | srv (priority weight port : UInt16) (target : Str)
  deriving DecidableEq, Repr

structure Record where
  domainName : Str
  rrType : UInt16
  rrClass : UInt16
  rrTTL : UInt32
  rdata : RData
  deriving DecidableEq, Repr

structure Question where
  qName : Str
  qType : UInt16
  qClass : UInt16
  deriving DecidableEq, Repr

structure Header where
  queryId : UInt16
  /-- A response, and not a query. -/
  qrType : Bool
  rCode : UInt8
  qdCount : UInt16
  anCount : UInt16
  nsCount : UInt16
  arCount : UInt16
  deriving DecidableEq, Repr

structure Packet where
  header : Header
  questions : List Question
  answers : List Record
  authority : List Record
  additional : List Record
  deriving DecidableEq, Repr

/-! ### Writing -/

/-- The positions of the rests of names. -/
abbrev Offsets := List (Str × Nat)

/-- A part of the packet: what it writes, from the positions known and its own
position. `none` is an exception or a failed assertion. -/
abbrev Writer := Offsets → Nat → Option (List UInt8 × Offsets)

namespace Writer

def emit (bytes : List UInt8) : Writer := fun offsets _ => some (bytes, offsets)

def seq (first second : Writer) : Writer := fun offsets headerOffset => do
  let (bytes, offsets) ← first offsets headerOffset
  let (bytes', offsets) ← second offsets (headerOffset + bytes.length)
  return (bytes ++ bytes', offsets)

def all : List Writer → Writer
  | [] => emit []
  | first :: rest => seq first (all rest)

/-- Two bytes for the length, which are filled in at the end. -/
def withLength (content : Writer) : Writer := fun offsets headerOffset => do
  let (bytes, offsets) ← content offsets (headerOffset + 2)
  return (u16Bytes (UInt16.ofNat bytes.length) ++ bytes, offsets)

end Writer

/-- The loop of `MDNSDomainName::Serialize`. A name whose last label has no dot
ends in an exception of `substr`. -/
def serializeNameLoop : Nat → Str → Writer
  | 0, _, _, _ => none
  | fuel + 1, name, offsets, headerOffset =>
    if name = [] then some ([0], offsets)
    else
      match offsets.lookup name with
      | some offset =>
        some ([0xC0 ||| UInt8.ofNat (offset / 256), UInt8.ofNat offset], offsets)
      | none =>
        let label := name.takeWhile (· ≠ dot)
        match name.dropWhile (· ≠ dot) with
        | [] => none
        | _ :: rest => do
          let (bytes, offsets) ← serializeNameLoop fuel rest ((name, headerOffset) :: offsets)
            (headerOffset + 1 + label.length)
          return (UInt8.ofNat label.length :: (label ++ bytes), offsets)

/-- `MDNSDomainName::Serialize`. -/
def serializeName (name : Str) : Writer := serializeNameLoop (name.length + 1) name

/-- An entry of a text record. -/
def entryBytes (entry : Str × Str) : List UInt8 :=
  let s := entry.1 ++ equals :: entry.2
  UInt8.ofNat s.length :: s

/-- The fields from `txtvers` on, and round to it. -/
def rotatedFields (fields : Fields) : Option Fields :=
  match fields.dropWhile (·.1 ≠ txtvers) with
  | [] => none
  | fromTxtvers => some (fromTxtvers ++ fields.takeWhile (·.1 ≠ txtvers))

variable (text : AddressText)

/-- `Serialize` of the classes of record data. An address that is not one of
IPv4 writes nothing; the bytes of one that is not one of IPv6 are those that the
buffer held, here zeroes. -/
def RData.serialize : RData → Writer
  | .default => .emit []
  | .text fields => fun offsets headerOffset => do
    let fields ← rotatedFields fields
    Writer.withLength (.emit (fields.flatMap entryBytes)) offsets headerOffset
  | .a addr =>
    match text.stringToIPv4 addr with
    | some bytes => .emit ([0, 4] ++ bytes.toList)
    | none => .emit []
  | .aaaa addr => .emit ([0, 16] ++ ((text.stringToIPv6 addr).getD (Vector.replicate 16 0)).toList)
  | .ptr name => .withLength (serializeName name)
  | .srv priority weight port target =>
    .withLength (.seq (.emit (u16Bytes priority ++ u16Bytes weight ++ u16Bytes port))
      (serializeName target))

def Record.serialize (record : Record) : Writer :=
  .seq (serializeName record.domainName)
    (.seq (.emit (u16Bytes record.rrType ++ u16Bytes record.rrClass ++ u32Bytes record.rrTTL))
      (record.rdata.serialize text))

def Question.serialize (question : Question) : Writer :=
  .seq (serializeName question.qName) (.emit (u16Bytes question.qType ++ u16Bytes question.qClass))

/-- `MDNSHeader::Serialize`. Of the first two counts the low byte is written. -/
def Header.bytes (header : Header) : List UInt8 :=
  u16Bytes header.queryId ++ [if header.qrType then 0x80 else 0, header.rCode,
    0, header.qdCount.toUInt8, 0, header.anCount.toUInt8] ++
    u16Bytes header.nsCount ++ u16Bytes header.arCount

/-- What follows the header. -/
def Packet.body (packet : Packet) : Writer :=
  .seq (.all (packet.questions.map (·.serialize)))
    (.seq (.all (packet.answers.map (·.serialize text)))
      (.seq (.all (packet.authority.map (·.serialize text)))
        (.all (packet.additional.map (·.serialize text)))))

/-- `_MDNSPacket::Serialize`: the bytes written. -/
def Packet.serialize (packet : Packet) : Option (List UInt8) := do
  let (bytes, _) ← packet.body text [] 12
  return packet.header.bytes ++ bytes

/-! ### The expected size -/

/-- The size of a part of the packet. The positions are placeholders. -/
abbrev Sizer := Offsets → Option (Nat × Offsets)

namespace Sizer

def const (size : Nat) : Sizer := fun offsets => some (size, offsets)

def seq (first second : Sizer) : Sizer := fun offsets => do
  let (size, offsets) ← first offsets
  let (size', offsets) ← second offsets
  return (size + size', offsets)

def all : List Sizer → Sizer
  | [] => const 0
  | first :: rest => seq first (all rest)

end Sizer

/-- The loop of `MDNSDomainName::GetSerializedSize`. -/
def nameSizeLoop : Nat → Str → Sizer
  | 0, _, _ => none
  | fuel + 1, name, offsets =>
    if name = [] then some (1, offsets)
    else
      match offsets.lookup name with
      | some _ => some (2, offsets)
      | none =>
        let label := name.takeWhile (· ≠ dot)
        match name.dropWhile (· ≠ dot) with
        | [] => none
        | _ :: rest => do
          let (size, offsets) ← nameSizeLoop fuel rest ((name, 0) :: offsets)
          return (1 + label.length + size, offsets)

/-- `MDNSDomainName::GetSerializedSize`. -/
def nameSize (name : Str) : Sizer := nameSizeLoop (name.length + 1) name

/-- The size of an entry of a text record. The equals sign is not counted when
the value is empty. -/
def entrySize (entry : Str × Str) : Nat :=
  let s := if entry.2 = [] then entry.1 else entry.1 ++ equals :: entry.2
  s.length + 1

/-- `GetSerializedSize` of the classes of record data. -/
def RData.size : RData → Sizer
  | .default => .const 0
  | .text fields => .const ((fields.map entrySize).sum + 2)
  | .a _ => .const (4 + 2)
  | .aaaa _ => .const (16 + 2)
  | .ptr name => .seq (.const 2) (nameSize name)
  | .srv _ _ _ target => .seq (.const (2 + 6)) (nameSize target)

/-- `MDNSResourceRecord::GetSerializedSize`. -/
def Record.size (record : Record) : Sizer :=
  .seq (nameSize record.domainName) (.seq (.const 8) record.rdata.size)

/-- `MDNSQuestion::GetSerializedSize`. -/
def Question.size (question : Question) : Sizer := .seq (nameSize question.qName) (.const 4)

/-- The size of what follows the header. -/
def Packet.bodySize (packet : Packet) : Sizer :=
  .seq (.all (packet.questions.map (·.size)))
    (.seq (.all (packet.answers.map (·.size)))
      (.seq (.all (packet.authority.map (·.size)))
        (.all (packet.additional.map (·.size)))))

/-- The rests of names, by their positions. -/
abbrev Compressed := List (Nat × Str)

/-- A part of the packet as it is read: the value, the number of bytes it took
and the positions known after it. `none` is the size 0 that stands for an error. -/
abbrev Reader (α : Type) := List UInt8 → Compressed → Nat → Option (α × Nat × Compressed)

/-- A name with a dot behind it, unless it is empty. -/
def dotted (name : Str) : Str := if name = [] then name else name ++ [dot]

/-- The loop of `MDNSDomainName::Deserialize`: the name so far, and the size with
the positions of the labels unless there is an error. -/
def readNameLoop (compressed : Compressed) (headerOffset : Nat) :
    Nat → List UInt8 → Str → Nat → List Nat → Str × Option (Nat × List Nat)
  | 0, _, name, _, _ => (name, none)
  | _ + 1, [], name, size, offsets => (name, some (size, offsets))
  | fuel + 1, byte :: buffer, name, size, offsets =>
    match decide ((byte &&& 0xC0) >>> 6 = 3), buffer with
    | true, low :: _ =>
      match compressed.lookup (u16OfBytes byte low &&& 0x3FFF).toNat with
      | some suffix => (dotted name ++ suffix, some (size + 2, offsets))
      | none => (name, none)
    | _, _ =>
      if buffer.length < byte.toNat then (name, none)
      else if byte.toNat > 0 then
        readNameLoop compressed headerOffset fuel (buffer.drop byte.toNat)
          (dotted name ++ buffer.take byte.toNat) (size + 1 + byte.toNat)
          (offsets ++ [headerOffset + size])
      else (dotted name, some (size + 1, offsets))

/-- `MDNSDomainName::Deserialize`: the name, the size, which is 0 for an error,
and the positions. -/
def readName (buffer : List UInt8) (compressed : Compressed) (headerOffset : Nat) :
    Str × Nat × Compressed :=
  match readNameLoop compressed headerOffset (buffer.length + 1) buffer [] 0 [] with
  | (name, some (size, offsets)) =>
    (name, size, offsets.foldl
      (fun compressed offset => (offset, name.drop (offset - headerOffset)) :: compressed)
      compressed)
  | (name, none) => (name, 0, compressed)

/-- `MDNSQuestion::Deserialize`. -/
def readQuestion : Reader Question := fun buffer compressed headerOffset =>
  let (name, size, compressed) := readName buffer compressed headerOffset
  if size = 0 then none
  else
    match buffer.drop size with
    | t0 :: t1 :: c0 :: c1 :: _ =>
      some (⟨name, u16OfBytes t0 t1, u16OfBytes c0 c1⟩, size + 4, compressed)
    | _ => none

/-- The classes of record data. -/
inductive RDataClass where
  | default
  | text
  | a
  | aaaa
  | ptr
  | srv
  deriving DecidableEq, Repr

/-- The class that is created for a type of records: A is 1, NS, MD, MF and CNAME
are 2 to 5, MB, MG and MR 7 to 9, PTR is 12, HINFO 13, TXT 16, AAAA 28, SRV 33. -/
def rdataClass (rrType : UInt16) : RDataClass :=
  if rrType = 1 then .a
  else if rrType ∈ [2, 3, 4, 5, 7, 8, 9, 12] then .ptr
  else if rrType ∈ [13, 16] then .text
  else if rrType = 28 then .aaaa
  else if rrType = 33 then .srv
  else .default

/-- The loop of `MDNSTextRData::Deserialize`: the rest of the length and the fields. -/
def readFieldsLoop : Nat → List UInt8 → UInt16 → Fields → Option (UInt16 × Fields)
  | 0, _, _, _ => none
  | fuel + 1, buffer, rdlen, fields =>
    if rdlen = 0 then some (rdlen, fields)
    else
      match buffer with
      | [] => some (rdlen, fields)
      | sz :: buffer =>
        if buffer.length < sz.toNat then none
        else
          let s := buffer.take sz.toNat
          let value := (s.dropWhile (· ≠ equals)).drop 1
          readFieldsLoop fuel (buffer.drop sz.toNat) (rdlen - (sz.toUInt16 + 1))
            (assign (s.takeWhile (· ≠ equals)) value fields)

/-- `Deserialize` of the classes of record data. -/
def readRData (cls : RDataClass) : Reader RData := fun buffer compressed headerOffset =>
  match cls, buffer with
  | .default, b0 :: b1 :: buffer =>
    let rdlen := u16OfBytes b0 b1
    if buffer.length < rdlen.toNat then none else some (.default, rdlen.toNat + 2, compressed)
  | .text, b0 :: b1 :: buffer =>
    let rdlen := u16OfBytes b0 b1
    if buffer.length < rdlen.toNat then none
    else
      match readFieldsLoop (buffer.length + 1) buffer rdlen newFields with
      | some (rest, fields) =>
        if rest ≠ 0 then none else some (.text fields, 2 + rdlen.toNat, compressed)
      | none => none
  | .a, b0 :: b1 :: p0 :: p1 :: p2 :: p3 :: _ =>
    if b0 ≠ 0 ∨ b1 ≠ 4 then none
    else some (.a (text.ipv4ToString #v[p0, p1, p2, p3]), 6, compressed)
  | .aaaa, b0 :: b1 :: buffer =>
    if h : 16 ≤ buffer.length then
      if b0 ≠ 0 ∨ b1 ≠ 16 then none
      else
        let p : Vector UInt8 16 := ⟨(buffer.take 16).toArray, by simp [h]⟩
        some (.aaaa (text.ipv6ToString p), 18, compressed)
    else none
  | .ptr, b0 :: b1 :: buffer =>
    let szStr := u16OfBytes b0 b1
    if buffer.length < szStr.toNat then none
    else
      -- an empty buffer is an empty name here, and an error everywhere else
      if buffer = [] then some (.ptr [], 2, compressed)
      else
        let (name, size, compressed) := readName buffer compressed (headerOffset + 2)
        if size = 0 then none else some (.ptr name, 2 + size, compressed)
  | .srv, b0 :: b1 :: buffer =>
    let length := u16OfBytes b0 b1
    if buffer.length < length.toNat ∨ length < 6 then none
    else
      match buffer with
      | p0 :: p1 :: w0 :: w1 :: q0 :: q1 :: buffer =>
        -- an error in the target is not noticed
        let (target, size, compressed) := readName buffer compressed (headerOffset + 8)
        some (.srv (u16OfBytes p0 p1) (u16OfBytes w0 w1) (u16OfBytes q0 q1) target, 8 + size,
          compressed)
      | _ => none
  | _, _ => none

/-- `MDNSResourceRecord::Deserialize`. -/
def readRecord : Reader Record := fun buffer compressed headerOffset =>
  let (name, size, compressed) := readName buffer compressed headerOffset
  if size = 0 then none
  else
    match buffer.drop size with
    | t0 :: t1 :: c0 :: c1 :: l0 :: l1 :: l2 :: l3 :: rest =>
      let rrType := u16OfBytes t0 t1
      match readRData text (rdataClass rrType) rest compressed (headerOffset + size + 8) with
      | some (rdata, processed, compressed) =>
        some (⟨name, rrType, u16OfBytes c0 c1, u32OfBytes l0 l1 l2 l3, rdata⟩, size + 8 + processed,
          compressed)
      | none => none
    | _ => none

/-- A number of parts of the same kind. -/
def readAll {α : Type} (read : Reader α) : Nat → Reader (List α)
  | 0, _, compressed, _ => some ([], 0, compressed)
  | n + 1, buffer, compressed, headerOffset => do
    let (value, size, compressed) ← read buffer compressed headerOffset
    if size > buffer.length then none
    else
      let (values, sizes, compressed) ←
        readAll read n (buffer.drop size) compressed (headerOffset + size)
      return (value :: values, size + sizes, compressed)

/-- `MDNSHeader::Deserialize`. Of the number of questions the low byte is read. -/
def readHeader : List UInt8 → Option Header
  | b0 :: b1 :: b2 :: b3 :: _ :: b5 :: b6 :: b7 :: b8 :: b9 :: b10 :: b11 :: _ =>
    some
      { queryId := u16OfBytes b0 b1
        qrType := b2 >>> 7 ≠ 0
        rCode := b3 &&& 0x0F
        qdCount := b5.toUInt16
        anCount := u16OfBytes b6 b7
        nsCount := u16OfBytes b8 b9
        arCount := u16OfBytes b10 b11 }
  | _ => none

/-- `_MDNSPacket::Deserialize`: the packet and the number of bytes it took. -/
def deserialize (buffer : List UInt8) : Option (Packet × Nat) := do
  let header ← readHeader buffer
  -- a query without a question, or a header alone
  if header.qrType = false ∧ header.qdCount = 0 ∨ buffer.length ≤ 12 then none
  else
    let buffer := buffer.drop 12
    let (questions, qs, compressed) ← readAll readQuestion header.qdCount.toNat buffer [] 12
    let (answers, an, compressed) ← readAll (readRecord text) header.anCount.toNat
      (buffer.drop qs) compressed (12 + qs)
    let (authority, ns, compressed) ← readAll (readRecord text) header.nsCount.toNat
      (buffer.drop (qs + an)) compressed (12 + qs + an)
    let (additional, ar, _) ← readAll (readRecord text) header.arCount.toNat
      (buffer.drop (qs + an + ns)) compressed (12 + qs + an + ns)
    return (⟨header, questions, answers, authority, additional⟩, 12 + qs + an + ns + ar)

end AllJoyn.Mdns
