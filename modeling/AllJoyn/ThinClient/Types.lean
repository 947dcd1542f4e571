import AllJoyn.Wire.Types

/-!
Argument types of the thin client (`aj_msg.c`): the table of their kinds and
alignments, and the length of the first complete type of a signature. A
signature is the characters in front of its NUL.
-/

namespace AllJoyn.ThinClient

open Lib.Bytes Wire List TypeId

/-- The byte order of the host. -/
inductive Host where
  | littleEndian
  | bigEndian
  deriving DecidableEq, Repr

/-- Whether the bytes of a word stand the other way round than on a
little-endian host. -/
def Host.swap : Host → Bool
  | .littleEndian => false
  | .bigEndian => true

/-- `AJ_Status`, as far as the code modelled here returns it. -/
inductive AjStatus where
  | ok
  | errFailure
  | errUnexpected
  | errRead
  | errMarshal
  | errUnmarshal
  | errEndOfData
  | errResources
  | errNoMore
  | errSignature
  deriving DecidableEq, Repr

/-! ### Kinds of types -/

/-- `TypeFlags`: the low four bits are the alignment. -/
def typeFlags : List UInt8 :=
  [0x28, 0, 0x24, 0x14, 0, 0x18, 0, 0, 0x41, 0x14, 0x14, 0, 0, 0, 0, 0x12, 0x44, 0, 0x12, 0, 0x44,
    0x18, 0x14, 0x81, 0, 0x18, 0x11, 0, 0x28, 0, 0]

def typeFlag (t : UInt8) : UInt8 :=
  typeFlags.getD
    (if t = 40 ∨ t = 41 then t.toNat - 40
    else if t < 97 ∨ t > 125 then 125 + 2 - 97
    else t.toNat + 2 - 97) 0

/-- `ALIGNMENT`, and `SizeOfType` of a scalar. -/
def alignment (t : UInt8) : Nat := (typeFlag t &&& 0xF).toNat

def isScalarType (t : UInt8) : Bool := typeFlag t &&& 0x10 ≠ 0

/-- `TYPE_FLAG(t) & AJ_CONTAINER`. -/
def isContainerType (t : UInt8) : Bool := typeFlag t &&& 0x20 ≠ 0

/-- `TYPE_FLAG(t) & (AJ_STRING | AJ_VARIANT)`. -/
def isStringOrVariant (t : UInt8) : Bool := typeFlag t &&& 0xC0 ≠ 0

/-- `PadForType` at an offset from the start of the buffer. -/
def padForType (t : UInt8) (offset : Nat) : Nat :=
  ((UInt32.ofNat (alignment t) - UInt32.ofNat offset) &&& (UInt32.ofNat (alignment t) - 1)).toNat

/-! ### Signatures -/

/-- The loop of `CompleteTypeSigLen` with the brackets open and the characters
read so far. -/
def scanCompleteType : List UInt8 → Nat → Nat → Nat
  | [], _, count => count
  | typeId :: sig, opened, count =>
    if typeId = structClose.char ∨ typeId = dictEntryClose.char then
      if opened = 0 then 0
      else if opened - 1 = 0 then count + 1
      else scanCompleteType sig (opened - 1) (count + 1)
    else if typeId = structOpen.char ∨ typeId = dictEntryOpen.char then
      scanCompleteType sig (opened + 1) (count + 1)
    else if opened = 0 ∧ typeId ≠ array.char then count + 1
    else scanCompleteType sig opened (count + 1)

/-- `CompleteTypeSigLen`; the length is a byte. -/
def completeTypeSigLen (sig : List UInt8) : Nat := scanCompleteType sig 0 0 % 256

/-! ### The types of the wire format -/

theorem alignment_char {id : TypeId} (hid : id ≠ .struct ∧ id ≠ .dictEntry) :
    alignment id.char = id.alignment := by
  cases id with
  | scalar type => cases type <;> rfl
  | struct => exact absurd rfl hid.1
  | dictEntry => exact absurd rfl hid.2
  | _ => rfl

theorem padForType_eq {t : UInt8} {offset : Nat} (halignment : alignment t ∈ [1, 2, 4, 8])
    (hoffset : offset < 2 ^ 32) : padForType t offset = padBytes offset (alignment t) := by
  have hoffset' : (UInt32.ofNat offset).toNat = offset := UInt32.toNat_ofNat_of_lt' hoffset
  have hpad : ∀ n : UInt32, ∀ k, n.toNat = 2 ^ k → (n - 1).toNat = 2 ^ k - 1 →
      ((n - UInt32.ofNat offset) &&& (n - 1)).toNat = (2 ^ 32 - offset + 2 ^ k) % 2 ^ 32 % 2 ^ k := by
    intro n k hn hmask
    rw [UInt32.toNat_and, hmask, Nat.and_two_pow_sub_one_eq_mod, UInt32.toNat_sub, hn, hoffset']
  unfold padForType padBytes
  simp only [mem_cons, not_mem_nil, or_false] at halignment
  obtain h | h | h | h := halignment <;> rw [h]
  · rw [hpad _ 0 rfl rfl]; omega
  · rw [hpad _ 1 rfl rfl]; omega
  · rw [hpad _ 2 rfl rfl]; omega
  · rw [hpad _ 3 rfl rfl]; omega

/-! ### The first complete type -/

section Scan

variable {rest : List UInt8} {opened count : Nat}

variable {typeId : UInt8}

theorem scanCompleteType_plain (hplain : typeId ∉ [40, 41, 123, 125]) (hopened : 0 < opened) :
    scanCompleteType (typeId :: rest) opened count = scanCompleteType rest opened (count + 1) := by
  simp only [mem_cons, not_or] at hplain
  obtain ⟨hopen, hclose, hdictOpen, hdictClose⟩ := hplain
  simp [scanCompleteType, char, hopen, hclose, hdictOpen, hdictClose, hopened.ne']

theorem scanCompleteType_array :
    scanCompleteType (array.char :: rest) opened count =
      scanCompleteType rest opened (count + 1) := by
  rw [scanCompleteType, if_neg (by decide), if_neg (by decide), if_neg fun h => h.2 rfl]

theorem scanCompleteType_open (hopen : typeId ∈ [40, 123]) :
    scanCompleteType (typeId :: rest) opened count =
      scanCompleteType rest (opened + 1) (count + 1) := by
  simp only [mem_cons, not_mem_nil, or_false] at hopen
  obtain rfl | rfl := hopen <;> rw [scanCompleteType, if_neg (by decide), if_pos (by decide)]

theorem scanCompleteType_close (hclose : typeId ∈ [41, 125])
    (hopened : 0 < opened) :
    scanCompleteType (typeId :: rest) (opened + 1) count =
      scanCompleteType rest opened (count + 1) := by
  simp only [mem_cons, not_mem_nil, or_false] at hclose
  obtain rfl | rfl := hclose <;>
    rw [scanCompleteType, if_pos (by decide), if_neg (by omega), if_neg (by omega),
      Nat.add_sub_cancel]

theorem scanCompleteType_last (hclose : typeId ∈ [41, 125]) :
    scanCompleteType (typeId :: rest) 1 count = count + 1 := by
  simp only [mem_cons, not_mem_nil, or_false] at hclose
  obtain rfl | rfl := hclose <;>
    rw [scanCompleteType, if_pos (by decide), if_neg (by decide), if_pos rfl]

end Scan

mutual
theorem scanCompleteType_opened : ∀ (type : Ty) (rest : List UInt8) {opened : Nat} (count : Nat),
    0 < opened →
    scanCompleteType (type.sig ++ rest) opened count =
      scanCompleteType rest opened (count + type.sig.length)
  | .scalar type, _, _, _, hopened => scanCompleteType_plain (by cases type <;> decide) hopened
  | .string, _, _, _, hopened | .objectPath, _, _, _, hopened | .signature, _, _, _, hopened
  | .variant, _, _, _, hopened => scanCompleteType_plain (by decide) hopened
  | .array elem, rest, opened, count, hopened => by
    rw [Ty.sig, cons_append, scanCompleteType_array,
      scanCompleteType_opened elem rest _ hopened, length_cons, Nat.add_assoc,
      Nat.add_comm 1]
  | .struct members, rest, opened, count, hopened => by
    rw [Ty.sig, cons_append, scanCompleteType_open (by decide), append_assoc,
      scanCompleteTypes_opened members _ _ (Nat.succ_pos opened), singleton_append,
      scanCompleteType_close (by decide) hopened]
    simp only [length_cons, length_append, length_nil]
    congr 1
    omega
  | .dictEntry key val, rest, opened, count, hopened => by
    rw [Ty.sig, cons_append, scanCompleteType_open (by decide), append_assoc,
      append_assoc, scanCompleteType_opened key _ _ (Nat.succ_pos opened),
      scanCompleteType_opened val _ _ (Nat.succ_pos opened), singleton_append,
      scanCompleteType_close (by decide) hopened]
    simp only [length_cons, length_append, length_nil]
    congr 1
    omega

theorem scanCompleteTypes_opened :
    ∀ (types : List Ty) (rest : List UInt8) {opened : Nat} (count : Nat), 0 < opened →
      scanCompleteType (sigs types ++ rest) opened count =
        scanCompleteType rest opened (count + (sigs types).length)
  | [], _, _, _, _ => rfl
  | type :: types, rest, _, count, hopened => by
    rw [sigs, append_assoc, scanCompleteType_opened type _ _ hopened,
      scanCompleteTypes_opened types _ _ hopened, length_append, Nat.add_assoc]
end

theorem scanCompleteType_sig : ∀ (type : Ty) (rest : List UInt8) (count : Nat),
    scanCompleteType (type.sig ++ rest) 0 count = count + type.sig.length
  | .scalar type, _, _ => by cases type <;> rfl
  | .string, _, _ | .objectPath, _, _ | .signature, _, _ | .variant, _, _ => rfl
  | .array elem, rest, count => by
    rw [Ty.sig, cons_append, scanCompleteType_array, scanCompleteType_sig elem,
      length_cons]
    omega
  | .struct members, rest, count => by
    rw [Ty.sig, cons_append, scanCompleteType_open (by decide), append_assoc,
      scanCompleteTypes_opened members _ _ (by decide), singleton_append,
      scanCompleteType_last (by decide)]
    simp only [length_cons, length_append, length_nil]
    omega
  | .dictEntry key val, rest, count => by
    rw [Ty.sig, cons_append, scanCompleteType_open (by decide), append_assoc,
      append_assoc, scanCompleteType_opened key _ _ (by decide),
      scanCompleteType_opened val _ _ (by decide), singleton_append,
      scanCompleteType_last (by decide)]
    simp only [length_cons, length_append, length_nil]
    omega

theorem completeTypeSigLen_sig {type : Ty} (rest : List UInt8) (hlength : type.sig.length ≤ 255) :
    completeTypeSigLen (type.sig ++ rest) = type.sig.length := by
  rw [completeTypeSigLen, scanCompleteType_sig, Nat.zero_add, Nat.mod_eq_of_lt (by omega)]

end AllJoyn.ThinClient
