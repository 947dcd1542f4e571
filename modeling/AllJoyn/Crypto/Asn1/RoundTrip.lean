import AllJoyn.Crypto.Asn1.Fields

/-!
What the decoder makes of the encoder's output. A syntax string and the values
that match it are one tree here, `Items`, so that the two interpreters can be
followed along it: each consumes the characters of an item, and what the encoder
appends for it is what the decoder takes from the data.
-/

namespace AllJoyn.Crypto.Asn1

open List Option

/-- The strings that are copied as they are. -/
inductive StringKind where
  | octets
  | ascii
  | utcTime
  | genTime
  | printable
  | utf8
  deriving DecidableEq, Repr

def StringKind.char : StringKind → Char
  | .octets => 'x'
  | .ascii => 'a'
  | .utcTime => 't'
  | .genTime => 'T'
  | .printable => 'p'
  | .utf8 => 'u'

def StringKind.tag : StringKind → UInt8
  | .octets => asnOctets
  | .ascii => asnAscii
  | .utcTime => asnUtcTime
  | .genTime => asnGenTime
  | .printable => asnPrintable
  | .utf8 => asnUtf8

/-- An item that is not a group, with its value. -/
inductive Leaf where
  | integer (v : UInt32)
  | long (val : List UInt8)
  | string (kind : StringKind) (val : List UInt8)
  | bits (val : List UInt8) (bitLen : Nat)
  | oid (first second : Nat) (arcs : List Nat)
  | null
  deriving DecidableEq, Repr

namespace Leaf

def char : Leaf → Char
  | integer _ => 'i'
  | long _ => 'l'
  | string kind _ => kind.char
  | bits _ _ => 'b'
  | oid _ _ _ => 'o'
  | null => 'n'

def args : Leaf → List Arg
  | integer v => [.number v]
  | long val => [.string val]
  | string _ val => [.string val]
  | bits val bitLen => [.string val, .size bitLen]
  | oid first second arcs => [.string (dotted first second arcs)]
  | null => []

def slots : Leaf → List Slot
  | integer _ => [.number]
  | long _ => [.string]
  | string _ _ => [.string]
  | bits _ _ => [.string, .size]
  | oid _ _ _ => [.string]
  | null => []

def tag : Leaf → UInt8
  | integer _ => asnInteger
  | long _ => asnInteger
  | string kind _ => kind.tag
  | bits _ _ => asnBits
  | oid _ _ _ => asnOid
  | null => asnNull

def content : Leaf → List UInt8
  | integer v => integerBytes v
  | long val => signed val
  | string _ val => val
  | bits val bitLen => bitsContent val bitLen
  | oid first second arcs => (encodeOid (dotted first second arcs)).getD []
  | null => []

/-- The bits of the last byte that a bit string of `bitLen` bits does not use. -/
def unusedBits (bitLen : Nat) : Nat := (8 - bitLen % 8) % 8

/-- The values of an item: a number that is not zero and has no zero byte in
front, bits of which the unused ones are zero, and an identifier that starts
with two arcs of the standard. -/
def Valid : Leaf → Prop
  | integer _ => True
  | long val => val.headD 0 ≠ 0
  | string _ _ => True
  | bits val bitLen => 0 < bitLen ∧ bitLen ≤ val.length * 8 ∧
      2 ^ unusedBits bitLen ∣ (val.getD ((bitLen + 7) / 8 - 1) 0).toNat ∧
      ∀ byte ∈ val.drop ((bitLen + 7) / 8), byte = 0
  | oid first second _ => first ≤ 2 ∧ second < 40
  | null => True

instance : (leaf : Leaf) → Decidable leaf.Valid
  | integer _ | string _ _ | null => .isTrue trivial
  | long val => inferInstanceAs (Decidable (val.headD 0 ≠ 0))
  | bits val bitLen => inferInstanceAs (Decidable (0 < bitLen ∧ bitLen ≤ val.length * 8 ∧
      2 ^ unusedBits bitLen ∣ (val.getD ((bitLen + 7) / 8 - 1) 0).toNat ∧
      ∀ byte ∈ val.drop ((bitLen + 7) / 8), byte = 0))
  | oid first second _ => inferInstanceAs (Decidable (first ≤ 2 ∧ second < 40))

/-- A value that the encoding can hold. -/
def Fits (leaf : Leaf) : Prop :=
  leaf.content.length < 2 ^ 32 ∧
    match leaf with
    | bits val bitLen => val.length = (bitLen + 7) / 8
    | oid _ _ arcs => ∀ arc ∈ arcs, arc < 2 ^ 32
    | _ => True

instance : (leaf : Leaf) → Decidable leaf.Fits
  | integer _ | string _ _ | null | long _ => inferInstanceAs (Decidable (_ ∧ True))
  | bits val bitLen => inferInstanceAs (Decidable (_ ∧ val.length = (bitLen + 7) / 8))
  | oid _ _ arcs => inferInstanceAs (Decidable (_ ∧ ∀ arc ∈ arcs, arc < 2 ^ 32))

def bytes (leaf : Leaf) : List UInt8 := leaf.tag :: (lenBytes leaf.content.length ++ leaf.content)

end Leaf

inductive Group where
  | sequence
  | set
  deriving DecidableEq, Repr

namespace Group

def opening : Group → Char
  | sequence => '('
  | set => '{'

def closing : Group → Char
  | sequence => ')'
  | set => '}'

def tag : Group → UInt8
  | sequence => asnSeq
  | set => asnSetOf

end Group

/-- A syntax string with its values. -/
inductive Items where
  | done
  | leaf (leaf : Leaf) (rest : Items)
  | group (group : Group) (inside rest : Items)
  deriving DecidableEq, Repr

open Items

namespace Items

def form : Items → List Char
  | done => []
  | leaf l rest => l.char :: rest.form
  | group g inside rest => g.opening :: (inside.form ++ g.closing :: rest.form)

def args : Items → List Arg
  | done => []
  | leaf l rest => l.args ++ rest.args
  | group _ inside rest => inside.args ++ rest.args

def slots : Items → List Slot
  | done => []
  | leaf l rest => l.slots ++ rest.slots
  | group _ inside rest => inside.slots ++ rest.slots

def bytes : Items → List UInt8
  | done => []
  | leaf l rest => l.bytes ++ rest.bytes
  | group g inside rest =>
    (g.tag ||| 0x20) :: (lenBytes inside.bytes.length ++ inside.bytes) ++ rest.bytes

/-- The values are valid, and no group is empty. -/
def Valid : Items → Prop
  | done => True
  | leaf l rest => l.Valid ∧ rest.Valid
  | group _ inside rest => inside ≠ done ∧ inside.Valid ∧ rest.Valid

instance decidableValid : (items : Items) → Decidable items.Valid
  | done => .isTrue trivial
  | leaf l rest =>
    have := decidableValid rest
    inferInstanceAs (Decidable (l.Valid ∧ rest.Valid))
  | group _ inside rest =>
    have := decidableValid inside
    have := decidableValid rest
    inferInstanceAs (Decidable (inside ≠ done ∧ inside.Valid ∧ rest.Valid))

/-- Every value and every group fits into its encoding. -/
def Fits : Items → Prop
  | done => True
  | leaf l rest => l.Fits ∧ rest.Fits
  | group _ inside rest => inside.bytes.length < 2 ^ 32 ∧ inside.Fits ∧ rest.Fits

instance decidableFits : (items : Items) → Decidable items.Fits
  | done => .isTrue trivial
  | leaf l rest =>
    have := decidableFits rest
    inferInstanceAs (Decidable (l.Fits ∧ rest.Fits))
  | group _ inside rest =>
    have := decidableFits inside
    have := decidableFits rest
    inferInstanceAs (Decidable (inside.bytes.length < 2 ^ 32 ∧ inside.Fits ∧ rest.Fits))

/-- Encoding succeeds, and decoding with the same syntax string gives the
values back. -/
def RoundTrips (items : Items) : Prop :=
  ∃ asn, encode items.form items.args = some (.ok, asn) ∧
    decode asn items.form items.slots = some (.ok, items.args)

end Items

/-! ### Encoding an item -/

variable (items : Items) (val : List UInt8) (nested : Encoding → Option Encoding) (leaf : Leaf)
  (g : Group)

section Nested

variable (nested : Decoding → List UInt8 → Option Decoding)

end Nested

end AllJoyn.Crypto.Asn1
