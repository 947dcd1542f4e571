import AllJoyn.Status

/-!
The ASN.1 encoder and decoder (`ASN1.cc`): two interpreters of one syntax
string. `form` is the part of the syntax string that is still to be read, and
`none` is a behaviour that the source leaves undefined: an argument of the
wrong type, or an access outside of an array.
-/

namespace AllJoyn.Crypto.Asn1

/-- An argument: a `uint32_t`, a `qcc::String` or a `size_t`. -/
inductive Arg where
  | number (v : UInt32)
  | string (s : List UInt8)
  | size (n : Nat)
  deriving DecidableEq, Repr

def asnBoolean : UInt8 := 0x01
def asnInteger : UInt8 := 0x02
def asnBits : UInt8 := 0x03
def asnOctets : UInt8 := 0x04
def asnNull : UInt8 := 0x05
def asnOid : UInt8 := 0x06
def asnUtf8 : UInt8 := 0x0C
def asnSeq : UInt8 := 0x10
def asnSetOf : UInt8 := 0x11
def asnPrintable : UInt8 := 0x13
def asnAscii : UInt8 := 0x16
def asnUtcTime : UInt8 := 0x17
def asnGenTime : UInt8 := 0x18
def asnContextSpecific : UInt8 := 0x80
def asnContextSpecificConstructed : UInt8 := 0xA0
def asnConstructedEncoding : UInt8 := 0x20

/-- The tags of the strings that are copied as they are. -/
def stringTag : Char → Option UInt8
  | 'x' => some asnOctets
  | 'a' => some asnAscii
  | 't' => some asnUtcTime
  | 'T' => some asnGenTime
  | 'p' => some asnPrintable
  | 'u' => some asnUtf8
  | _ => none

/-! ### Lengths and integers -/

/-- The bytes of a 32-bit number, most significant first. -/
def wordBytes (v : UInt32) : List UInt8 :=
  [(v >>> 24).toUInt8, (v >>> 16).toUInt8, (v >>> 8).toUInt8, v.toUInt8]

/-- `EncodeLen`. The search for the first byte that is not zero runs over the
end of the array where the low 32 bits of a long length are zero. -/
def encodeLen (len : Nat) : Option (List UInt8) :=
  if len < 128 then some [UInt8.ofNat len]
  else
    match (wordBytes (UInt32.ofNat len)).dropWhile (· = 0) with
    | [] => none
    | v => some ((UInt8.ofNat v.length ||| 0x80) :: v)

/-- The loop of `DecodeLen` over `n` bytes. -/
def decodeLongLen : Nat → UInt64 → List UInt8 → Option (UInt64 × List UInt8)
  | 0, l, p => some (l, p)
  | _ + 1, _, [] => none
  | n + 1, l, byte :: p =>
    if l <<< 8 < l then none else decodeLongLen n (l <<< 8 + byte.toUInt64) p

/-- `DecodeLen`: the length and what follows it, which is at least as long. -/
def decodeLen (p : List UInt8) : Option (Nat × List UInt8) := do
  let (l, p) ← match p with
    | [] => none
    | l :: p =>
      if l &&& 0x80 ≠ 0 then decodeLongLen (l &&& 0x7F).toNat 0 p else some (l.toUInt64, p)
  if l.toNat ≤ p.length then some (l.toNat, p) else none

/-- A number with a zero in front where its first bit would be a sign. -/
def signed (bytes : List UInt8) : List UInt8 :=
  if bytes.headD 0 &&& 0x80 ≠ 0 then 0 :: bytes else bytes

/-- The content of an integer of 32 bits. -/
def integerBytes (v : UInt32) : List UInt8 :=
  if v ≠ 0 then signed ((wordBytes v).dropWhile (· = 0)) else [0]

def numberOfBytes (bytes : List UInt8) : UInt32 :=
  bytes.foldl (fun v byte => v <<< 8 + byte.toUInt32) 0

/-! ### Object identifiers -/

def dot : UInt8 := 0x2E

def digitZero : UInt8 := 0x30

/-- The numbers of a dotted identifier. A character that is neither a dot nor a
digit leaves a single one. -/
def oidNumbers : List UInt8 → UInt32 → List UInt32 → List UInt32
  | [], accum, nums => nums ++ [accum]
  | c :: oid, accum, nums =>
    if c = dot then oidNumbers oid 0 (nums ++ [accum])
    else if digitZero ≤ c ∧ c ≤ 0x39 then
      oidNumbers oid (accum * 10 + c.toUInt32 - digitZero.toUInt32) nums
    else [accum]

/-- A number in base 128, without leading zeroes. -/
def base128 (v : UInt32) : List UInt8 :=
  [(v >>> 28).toUInt8 ||| 0x80, (v >>> 21).toUInt8 ||| 0x80, (v >>> 14).toUInt8 ||| 0x80,
    (v >>> 7).toUInt8 ||| 0x80].dropWhile (· = 0x80) ++ [v.toUInt8 &&& 0x7F]

/-- `EncodeOID`, where `none` is `ER_FAIL`. -/
def encodeOid (oid : List UInt8) : Option (List UInt8) :=
  match oidNumbers oid 0 [] with
  | first :: second :: nums => some ((first * 40 + second).toUInt8 :: nums.flatMap base128)
  | _ => none

/-- The loop of `U32ToString` in base 10. -/
def decimalLoop : Nat → Nat → List UInt8 → List UInt8
  | 0, _, out => out
  | turns + 1, num, out =>
    let out := UInt8.ofNat (48 + num % 10) :: out
    if num / 10 = 0 then out else decimalLoop turns (num / 10) out

/-- `U32ToString` in base 10. -/
def u32ToString (num : UInt32) : List UInt8 := decimalLoop 10 num.toNat []

/-- The loop of `DecodeOID` behind the first byte. -/
def oidText : List UInt8 → UInt32 → List UInt8
  | [], _ => []
  | p :: rest, v =>
    let v := v <<< 7 + (p % 128).toUInt32
    if p &&& 0x80 = 0 then dot :: u32ToString v ++ oidText rest 0 else oidText rest v

def decodeOid : List UInt8 → List UInt8
  | [] => []
  | p :: rest =>
    u32ToString (p / 40).toUInt32 ++ dot :: u32ToString (p % 40).toUInt32 ++ oidText rest 0

/-! ### Encoding -/

structure Encoding where
  status : QStatus
  form : List Char
  asn : List UInt8
  args : List Arg
  deriving Repr

/-- A tag, a length and the content. -/
def Encoding.push (st : Encoding) (tag : UInt8) (content : List UInt8) : Option Encoding := do
  let len ← encodeLen content.length
  return { st with asn := st.asn ++ tag :: (len ++ content) }

/-- The content of a bit string. The bits that are not used are cleared. -/
def bitsContent (val : List UInt8) (bitLen : Nat) : List UInt8 :=
  let unusedBits := (8 - bitLen % 8) % 8
  let len := (bitLen + 7) / 8
  UInt8.ofNat unusedBits :: (val.take (len - 1) ++
    [val.getD (len - 1) 0 &&& (0xFF <<< UInt8.ofNat unusedBits)])

/-- The rest of a group, from the state behind its items on. -/
def Encoding.close (st inner : Encoding) (tag : UInt8) (closing : Char) : Option Encoding :=
  match inner.form with
  | c :: form =>
    let st := { st with form := form, args := inner.args }
    if c ≠ closing then some { st with status := .fail }
    else if inner.status = .ok then st.push tag inner.asn
    else some { st with status := inner.status }
  | [] => some { st with status := .fail, form := [], args := inner.args }

section Item

variable (nested : Encoding → Option Encoding)

/-- One item of the syntax string. -/
def encodeItem (c : Char) (st : Encoding) : Option Encoding :=
  let inside : Encoding := ⟨.ok, st.form, [], st.args⟩
  match c with
  | 'i' =>
    match st.args with
    | .number v :: args => { st with args := args }.push asnInteger (integerBytes v)
    | _ => none
  | 'l' =>
    match st.args with
    | .string val :: args =>
      let st := { st with args := args }
      if val = [] then some { st with status := .fail }
      else st.push asnInteger (signed (val.dropWhile (· = 0)))
    | _ => none
  | 'o' =>
    match st.args with
    | .string val :: args =>
      let st := { st with args := args }
      match encodeOid val with
      | some oid => st.push asnOid oid
      | none => some { st with status := .fail, asn := st.asn ++ [asnOid] }
    | _ => none
  | 'b' =>
    match st.args with
    | .string val :: .size bitLen :: args =>
      let st := { st with args := args }
      if bitLen ≤ val.length * 8 then
        -- of no bits one byte less than none is appended
        if bitLen = 0 then none else st.push asnBits (bitsContent val bitLen)
      else some { st with status := .fail }
    | _ => none
  | 'n' => some { st with asn := st.asn ++ [asnNull, 0] }
  | '(' => do
    let inner ← nested inside
    st.close inner (asnSeq ||| 0x20) ')'
  | '{' => do
    let inner ← nested inside
    st.close inner (asnSetOf ||| 0x20) '}'
  | 'c' =>
    match st.args with
    | .number v :: args =>
      if v ≥ 32 then some { st with status := .fail, args := args }
      else
        match st.form with
        | '(' :: form => do
          let inner ← nested { inside with form := form, args := args }
          st.close inner (asnContextSpecificConstructed ||| v.toUInt8) ')'
        | form => some { st with status := .fail, form := form.drop 1, args := args }
    | _ => none
  | 'z' =>
    match st.args with
    | .number v :: args =>
      { st with args := args }.push asnBoolean [if v ≠ 0 then 0xFF else 0]
    | _ => none
  | 'R' =>
    match st.args with
    | .string val :: args => some { st with asn := st.asn ++ val, args := args }
    | _ => none
  | c =>
    match stringTag c with
    | some tag =>
      match st.args with
      | .string val :: args => { st with args := args }.push tag val
      | _ => none
    | none => some { st with status := .badArg1 }

end Item

/-- `EncodeV`. Every turn reads a character, so that the length of the syntax
string bounds their number. -/
def encodeV : Nat → Encoding → Option Encoding
  | 0, _ => none
  | fuel + 1, st =>
    if st.status ≠ .ok then some st
    else
      match st.form with
      | [] => some st
      | c :: form =>
        if c = ')' ∨ c = '}' then some st
        else do
          let st ← encodeItem (encodeV fuel) c { st with form := form }
          encodeV fuel st

/-- `Encode` into an empty string. -/
def encode (form : List Char) (args : List Arg) : Option (QStatus × List UInt8) := do
  let st ← encodeV (form.length + 1) ⟨.ok, form, [], args⟩
  return (st.status, st.asn)

/-! ### Decoding -/

/-- An argument of the decoder: where a value goes, a `NULL`, or the number of a
context-specific tag. -/
inductive Slot where
  | number
  | string
  | size
  | null
  | context (v : UInt32)
  deriving DecidableEq, Repr

structure Decoding where
  status : QStatus
  form : List Char
  slots : List Slot
  out : List Arg
  deriving Repr

/-- The content behind a tag, and what follows. -/
def content (expected tag : UInt8) (asn : List UInt8) : Option (List UInt8 × List UInt8) := do
  if tag ≠ expected then none
  else
    let (len, asn) ← decodeLen asn
    return (asn.take len, asn.drop len)

def Decoding.fail (st : Decoding) : Option (Decoding × List UInt8) :=
  some ({ st with status := .fail }, [])

/-- A value for the next argument, which must be of the kind given. -/
def Decoding.store (st : Decoding) (slot : Slot) (arg : Arg) : Option Decoding :=
  match st.slots with
  | next :: slots =>
    if next = slot then some { st with slots := slots, out := st.out ++ [arg] } else none
  | [] => none

/-- A string that is not stored where the argument is `NULL`. -/
def Decoding.storeOrSkip (st : Decoding) (val : List UInt8) : Option Decoding :=
  match st.slots with
  | .null :: slots => some { st with slots := slots }
  | _ => st.store .string (.string val)

/-- A string, with the data behind it. -/
def Decoding.take (st : Decoding) (val rest : List UInt8) : Option (Decoding × List UInt8) := do
  return (← st.store .string (.string val), rest)

/-- The rest of a group, from the state behind its items on. -/
def Decoding.close (inner : Decoding) (closing : Char) (rest : List UInt8) :
    Option (Decoding × List UInt8) :=
  match inner.form with
  | c :: form =>
    let status := if c ≠ closing then .fail else inner.status
    some ({ inner with status := status, form := form }, rest)
  | [] => some ({ inner with status := .fail }, rest)

section Item

variable (nested : Decoding → List UInt8 → Option Decoding)

/-- One item of the syntax string, for the tag `tag` and the data `asn` behind
it. `start` is the data from the tag on. -/
def decodeItem (c : Char) (tag : UInt8) (start asn : List UInt8) (st : Decoding) :
    Option (Decoding × List UInt8) :=
  match c with
  | '/' => some (st, start)
  | 'i' =>
    match content asnInteger tag asn with
    | some (val, rest) =>
      if val.length > 5 ∨ val.length < 1 then st.fail
      else do
        return (← st.store .number (.number (numberOfBytes val)), rest)
    | none => st.fail
  | 'l' =>
    match content asnInteger tag asn with
    | some (val, rest) =>
      if val.length < 1 then st.fail
      else st.take (if val.headD 0 = 0 then val.drop 1 else val) rest
    | none => st.fail
  | 'o' =>
    match content asnOid tag asn with
    | some (val, rest) => st.take (decodeOid val) rest
    | none => st.fail
  | 'b' =>
    match content asnBits tag asn with
    | some (unusedBits :: val, rest) =>
      if unusedBits > 7 then st.fail
      else do
        let st ← st.store .string (.string val)
        -- a size_t: no byte and some unused bits wrap
        let bits := BitVec.ofNat 64 (val.length * 8) - BitVec.ofNat 64 unusedBits.toNat
        return (← st.store .size (.size bits.toNat), rest)
    | _ => st.fail
  | 'z' =>
    match content asnBoolean tag asn with
    | some ([v], rest) => do
      return (← st.store .number (.number v.toUInt32), rest)
    | _ => st.fail
  | 'n' =>
    match asn with
    | byte :: rest => if tag ≠ asnNull ∨ byte ≠ 0 then st.fail else some (st, rest)
    | [] => if tag ≠ asnNull then st.fail else none
  | '(' =>
    match content asnSeq tag asn with
    | some (val, rest) => do (← nested st val).close ')' rest
    | none => st.fail
  | '{' =>
    match content asnSetOf tag asn with
    | some (val, rest) => do (← nested st val).close '}' rest
    | none => st.fail
  | '[' =>
    match content tag tag asn with
    | some (val, rest) => do (← nested st val).close ']' rest
    | none => st.fail
  | 'c' =>
    match st.slots with
    | .context v :: slots =>
      let st := { st with slots := slots }
      if v ≥ 32 then st.fail
      else
        match st.form with
        | '(' :: form =>
          let st := { st with form := form }
          match content tag tag asn with
          | some (val, rest) =>
            if tag &&& asnContextSpecific ≠ asnContextSpecific ∨ (tag &&& 0x1F).toUInt32 ≠ v then
              st.fail
            else if tag &&& asnConstructedEncoding = asnConstructedEncoding then do
              (← nested st val).close ')' rest
            else
              -- a primitive content is taken as it is
              match form.dropWhile (· ≠ ')') with
              | _ :: form => { st with form := form }.take val rest
              | [] => { st with form := [] }.fail
          | none => st.fail
        | form => { st with form := form.drop 1 }.fail
    | _ => none
  | '?' =>
    match content tag tag asn with
    | some (_, rest) => do
      return (← st.storeOrSkip (start.take (start.length - rest.length)), rest)
    | none => st.fail
  | '*' =>
    let st := { st with form := '*' :: st.form }
    match content tag tag asn with
    | some (_, rest) => some (st, rest)
    | none => st.fail
  | '.' => do
    return (← st.storeOrSkip start, [])
  | c =>
    match stringTag c with
    | some expected =>
      match content expected tag asn with
      | some (val, rest) => st.take val rest
      | none => st.fail
    | none => some ({ st with status := .badArg1 }, [])

end Item

/-- The end of `DecodeV`: a wildcard or an optional item without data. -/
def Decoding.finish (st : Decoding) : Option Decoding :=
  match st.form with
  | '*' :: form => some { st with form := form }
  | '/' :: form => do
    let st ← st.store .string (.string [])
    match form with
    | _ :: form => some { st with form := form }
    | [] => some { st with status := .badArg1 }
  | _ => some st

/-- The start of `DecodeV`. -/
def enter (loop : Decoding → List UInt8 → Option Decoding) (st : Decoding) (asn : List UInt8) :
    Option Decoding :=
  if asn = [] then some { st with status := .fail } else loop { st with status := .ok } asn

/-- The tag of an item, without the bits of its class. -/
def itemTag (tag : UInt8) : UInt8 :=
  if tag &&& asnContextSpecific ≠ asnContextSpecific then tag &&& 0x1F else tag

/-- The loop of `DecodeV`. Every turn reads a character or some data. -/
def decodeLoop : Nat → Decoding → List UInt8 → Option Decoding
  | 0, _, _ => none
  | fuel + 1, st, asn =>
    match asn with
    | [] => st.finish
    | tag :: rest =>
      if st.status ≠ .ok then st.finish
      else
        match st.form with
        -- the source looks for a wildcard past the end of the syntax string here
        | [] => some { st with status := .badArg1 }
        | c :: form => do
          let (st, asn) ← decodeItem (enter (decodeLoop fuel)) c (itemTag tag) asn rest
            { st with form := form }
          decodeLoop fuel st asn

/-- `Decode`: the status and the values. -/
def decode (asn : List UInt8) (form : List Char) (slots : List Slot) :
    Option (QStatus × List Arg) := do
  let st ← enter (decodeLoop (form.length + asn.length + 1)) ⟨.ok, form, slots, []⟩ asn
  return (st.status, st.out)

end AllJoyn.Crypto.Asn1
