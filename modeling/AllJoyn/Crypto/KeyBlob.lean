import AllJoyn.Lib.Bytes
import AllJoyn.Status
import Mathlib.Data.BitVec

/-!
Key blobs (`KeyBlob.cc`): a key with its type, tag, expiration and association,
written to a sink and loaded from a source.
-/

namespace AllJoyn.Crypto

open Lib.Bytes Nat

variable {rest : List UInt8} {status : QStatus} {kbVersion : Nat} {st : Loading} {blob : KeyBlob}

/-- `KeyBlob::Type`. A loaded type can be any byte; those from `INVALID` on are
`invalid`. -/
inductive BlobType where
  | empty
  | generic
  | aes
  | privateKey
  | pem
  | publicKey
  | spkiCert
  | dsaPrivate
  | dsaPublic
  | invalid (excess : Nat)
  deriving DecidableEq, Repr

def BlobType.toNat : BlobType → Nat
  | .empty => 0
  | .generic => 1
  | .aes => 2
  | .privateKey => 3
  | .pem => 4
  | .publicKey => 5
  | .spkiCert => 6
  | .dsaPrivate => 7
  | .dsaPublic => 8
  | .invalid excess => 9 + excess

def BlobType.ofNat : Nat → BlobType
  | 0 => .empty
  | 1 => .generic
  | 2 => .aes
  | 3 => .privateKey
  | 4 => .pem
  | 5 => .publicKey
  | 6 => .spkiCert
  | 7 => .dsaPrivate
  | 8 => .dsaPublic
  | excess + 9 => .invalid excess

inductive AssociationMode where
  | none
  | head
  | member
  | both
  deriving DecidableEq, Repr

structure Timespec where
  seconds : BitVec 64
  mseconds : BitVec 16
  deriving DecidableEq, Repr

/-- `KeyBlob` without its role, which is neither written nor loaded. -/
structure KeyBlob where
  version : Nat
  blobType : BlobType
  expiration : Timespec
  data : List UInt8
  tag : List UInt8
  associationMode : AssociationMode
  association : Vector UInt8 16
  deriving DecidableEq, Repr

open KeyBlob

/-- The constructor `KeyBlob(version)`. -/
def KeyBlob.new (version : Nat) : KeyBlob where
  version := version
  blobType := .empty
  expiration := ⟨0, 0⟩
  data := []
  tag := []
  associationMode := .none
  association := Vector.replicate 16 0

def KeyBlob.erase (blob : KeyBlob) : KeyBlob :=
  if blob.blobType ≠ .empty then
    { blob with
      tag := []
      blobType := .empty
      data := []
      expiration := { blob.expiration with seconds := 0 }
      associationMode := .none }
  else { blob with associationMode := .none }

def expiresFlag : BitVec 16 := 0x80

def versionFlag : BitVec 16 := 0x40

def headerNode : BitVec 16 := 0x20

def v0MaxTagLen : BitVec 16 := 0x3F

/-! ### Store -/

/-- The first word: the type and, in version 0, the length of the tag. -/
def KeyBlob.flags (blob : KeyBlob) : BitVec 16 :=
  let type := BitVec.ofNat 16 blob.blobType.toNat <<< 8
  let flags :=
    if blob.version = 0 then type ||| BitVec.ofNat 16 blob.tag.length
    else type ||| versionFlag ||| BitVec.ofNat 16 blob.version
  let flags := if blob.expiration.seconds ≠ 0 then flags ||| expiresFlag else flags
  if blob.version ≠ 0 ∧ (blob.associationMode = .head ∨ blob.associationMode = .both) then
    flags ||| headerNode
  else flags

def KeyBlob.isMember (blob : KeyBlob) : Bool :=
  blob.associationMode = .member ∨ blob.associationMode = .both

/-- What `KeyBlob::Store` pushes into a sink that takes every byte. The size of
the key is kept in 16 bits. -/
def KeyBlob.store (blob : KeyBlob) : List UInt8 :=
  let size := blob.data.length % 65536
  leBytes 2 blob.flags.toNat ++
    if blob.blobType = .empty then []
    else
      (if blob.flags &&& expiresFlag ≠ 0 then
        leBytes 8 blob.expiration.seconds.toNat ++ leBytes 2 blob.expiration.mseconds.toNat
      else []) ++
      (if blob.version ≠ 0 then leBytes 1 blob.tag.length else []) ++
      blob.tag ++ leBytes 2 size ++ blob.data.take size ++
      if blob.version ≠ 0 then
        if blob.isMember then leBytes 1 16 ++ blob.association.toList else leBytes 1 0
      else []

/-! ### Load -/

/-- `StringSource::PullBytes`: the status, the bytes pulled and what is left. -/
def pullBytes (source : List UInt8) (reqBytes : Nat) : QStatus × List UInt8 × List UInt8 :=
  if source = [] then (.eof, [], []) else (.ok, source.take reqBytes, source.drop reqBytes)

structure Loading where
  status : QStatus
  blob : KeyBlob
  source : List UInt8

open Loading

section Load

variable (junk : UInt8)

/-- A word that was pulled into a variable which held `junk` before. -/
def pulledWord (width : Nat) (pulled : List UInt8) : Nat :=
  leValue (pulled ++ List.replicate (width - pulled.length) junk)

/-- The expiration of a blob whose `EXPIRES_FLAG` is set. -/
def Loading.loadExpiration (st : Loading) : Loading :=
  let (status, u64, source) := pullBytes st.source 8
  let seconds := BitVec.ofNat 64 (pulledWord junk 8 u64)
  let blob := { st.blob with expiration := { st.blob.expiration with seconds := seconds } }
  if status = .ok then
    let (status, u16, source) := pullBytes source 2
    let mseconds := BitVec.ofNat 16 (pulledWord junk 2 u16)
    ⟨status, { blob with expiration := { blob.expiration with mseconds := mseconds } }, source⟩
  else ⟨status, blob, source⟩

/-- The tag, of `tagLen` bytes. It is inserted before the tag the blob has. -/
def Loading.loadTag (st : Loading) (tagLen : Nat) : Loading :=
  let (status, tagBytes, source) := pullBytes st.source tagLen
  if status = .ok then ⟨status, { st.blob with tag := tagBytes ++ st.blob.tag }, source⟩
  else ⟨status, st.blob, source⟩

/-- The tag of a blob of version 1, behind its length. -/
def Loading.loadLengthAndTag (st : Loading) : Loading :=
  let (status, tagLen, source) := pullBytes st.source 1
  let st := ⟨status, st.blob, source⟩
  -- the length is 0 before it is pulled
  if status = .ok then st.loadTag (leValue tagLen) else st

/-- The key behind its size. -/
def Loading.loadData (st : Loading) (kbVersion : Nat) : Loading :=
  let (status, u16, source) := pullBytes st.source 2
  let size := pulledWord junk 2 u16
  let status := if kbVersion = 0 ∧ size > 4096 then .corruptKeyBlob else status
  if status = .ok then
    let (status, data, source) := pullBytes source size
    let data := data ++ List.replicate (size - data.length) junk
    ⟨status, { st.blob with data := if status = .ok then data else [] }, source⟩
  else ⟨status, st.blob, source⟩

/-- The association of a blob of a version other than 0. -/
def Loading.loadAssociation (st : Loading) : Loading :=
  let (status, len, source) := pullBytes st.source 1
  if status = .ok ∧ leValue len > 0 then
    if leValue len ≠ 16 then ⟨.corruptKeyBlob, st.blob, source⟩
    else
      let (status, buf, source) := pullBytes source (leValue len)
      let association :=
        if status = .ok then Vector.ofFn fun i : Fin 16 => buf.getD i junk
        else st.blob.association
      let mode := if st.blob.associationMode = .head then .both else .member
      ⟨status, { st.blob with association := association, associationMode := mode }, source⟩
  else ⟨status, st.blob, source⟩

def BlobType.isInvalid : BlobType → Bool
  | .invalid _ => true
  | _ => false

/-- The check of the type, and the mode of a header node. -/
def Loading.checkType (flags : BitVec 16) (st : Loading) : Loading :=
  if st.blob.blobType.isInvalid then { st with status := .corruptKeyBlob }
  else if flags &&& headerNode ≠ 0 then
    { st with blob := { st.blob with associationMode := .head } }
  else st

/-- The tag, which version 0 pulls even where a status is set already. -/
def Loading.loadAnyTag (flags : BitVec 16) (kbVersion : Nat) (st : Loading) : Loading :=
  if kbVersion = 0 then st.loadTag (flags &&& v0MaxTagLen).toNat
  else if kbVersion = 1 then st.loadLengthAndTag
  else st

/-- `KeyBlob::Load` behind the first word. -/
def Loading.loadBody (flags : BitVec 16) (st : Loading) : Loading :=
  let st := st.checkType flags
  let st := if st.status = .ok ∧ flags &&& expiresFlag ≠ 0 then st.loadExpiration junk else st
  let kbVersion :=
    if st.status = .ok ∧ flags &&& versionFlag ≠ 0 then (flags &&& 0xF).toNat else 0
  let st := st.loadAnyTag flags kbVersion
  let st := if st.status = .ok then st.loadData junk kbVersion else st
  if st.status = .ok ∧ kbVersion > 0 then st.loadAssociation junk else st

/-- A blob that failed to load is empty. -/
def Loading.finish (st : Loading) : Loading :=
  if st.status ≠ .ok then { st with blob := { st.blob with blobType := .empty } } else st

def KeyBlob.load (blob : KeyBlob) (source : List UInt8) : Loading :=
  let (status, u16, source) := pullBytes source 2
  let flags := BitVec.ofNat 16 (pulledWord junk 2 u16)
  let blob := { blob.erase with blobType := .ofNat (flags >>> 8).toNat }
  let st : Loading := ⟨status, blob, source⟩
  if status = .ok then (st.loadBody junk flags).finish else st.finish

end Load

/-! ### The first word -/

/-- A blob that can be built and is within the limits of its version. -/
structure KeyBlob.Legal (blob : KeyBlob) : Prop where
  version : blob.version ≤ 1
  type : blob.blobType.toNat < 9
  tag : blob.tag.length ≤ if blob.version = 0 then 63 else 255
  data : blob.data.length ≤ 4096

theorem BlobType.ofNat_toNat {type : BlobType} (hvalid : type.toNat < 9) :
    BlobType.ofNat type.toNat = type ∧ type.isInvalid = false := by
  cases type with
  | invalid excess =>
    rw [BlobType.toNat] at hvalid
    omega
  | _ => exact ⟨rfl, rfl⟩

/-- What a first word says. -/
structure Says (flags : BitVec 16) (type : Nat) (head expires : Bool) (kbVersion : Nat) :
    Prop where
  type : (flags >>> 8).toNat = type
  head : flags &&& headerNode ≠ 0 ↔ head = true
  expires : flags &&& expiresFlag ≠ 0 ↔ expires = true
  kbVersion : (if flags &&& versionFlag ≠ 0 then (flags &&& 0xF).toNat else 0) = kbVersion

instance (flags : BitVec 16) (type : Nat) (head expires : Bool) (kbVersion : Nat) :
    Decidable (Says flags type head expires kbVersion) :=
  decidable_of_iff ((flags >>> 8).toNat = type ∧ (flags &&& headerNode ≠ 0 ↔ head = true) ∧
      (flags &&& expiresFlag ≠ 0 ↔ expires = true) ∧
      (if flags &&& versionFlag ≠ 0 then (flags &&& 0xF).toNat else 0) = kbVersion)
    ⟨fun h => ⟨h.1, h.2.1, h.2.2.1, h.2.2.2⟩, fun h => ⟨h.type, h.head, h.expires, h.kbVersion⟩⟩

/-- In version 0 the bit of a header node is one of the bits of the tag length. -/
theorem says_version0 : ∀ type < 9, ∀ len < 64, ∀ expires : Bool,
    let flags := BitVec.ofNat 16 type <<< 8 ||| BitVec.ofNat 16 len
    let flags := if expires then flags ||| expiresFlag else flags
    Says flags type (decide (32 ≤ len)) expires 0 ∧ (flags &&& v0MaxTagLen).toNat = len := by
  decide +kernel

theorem says_version1 : ∀ type < 9, ∀ expires head : Bool,
    let flags := BitVec.ofNat 16 type <<< 8 ||| versionFlag ||| BitVec.ofNat 16 1
    let flags := if expires then flags ||| expiresFlag else flags
    Says (if head then flags ||| headerNode else flags) type head expires 1 := by
  decide +kernel

def KeyBlob.isHead (blob : KeyBlob) : Bool :=
  blob.associationMode = .head ∨ blob.associationMode = .both

theorem KeyBlob.flags_version0 (hlegal : blob.Legal) (hversion : blob.version = 0) :
    Says blob.flags blob.blobType.toNat (decide (32 ≤ blob.tag.length))
      (blob.expiration.seconds ≠ 0) 0 ∧ (blob.flags &&& v0MaxTagLen).toNat = blob.tag.length := by
  have htag := hlegal.tag
  rw [if_pos hversion] at htag
  have hflags := says_version0 blob.blobType.toNat hlegal.type blob.tag.length (by omega)
    (blob.expiration.seconds ≠ 0)
  simpa [flags, hversion] using hflags

theorem KeyBlob.flags_version1 (htype : blob.blobType.toNat < 9) (hversion : blob.version = 1) :
    Says blob.flags blob.blobType.toNat blob.isHead (blob.expiration.seconds ≠ 0) 1 := by
  have hflags := says_version1 blob.blobType.toNat htype (blob.expiration.seconds ≠ 0)
    blob.isHead
  simpa [flags, hversion, isHead] using hflags

/-! ### Pulling what was pushed -/

section Pull

variable (junk : UInt8) {n width type : Nat} {tag : List UInt8} {head : Bool}

theorem pullBytes_append {bytes : List UInt8} (hlength : bytes.length = n)
    (hsome : 0 < n ∨ rest ≠ []) : pullBytes (bytes ++ rest) n = (.ok, bytes, rest) := by
  have hnonempty : bytes ++ rest ≠ [] := by
    rcases hsome with hpos | hrest
    · intro hnil
      rw [List.append_eq_nil_iff] at hnil
      rw [hnil.1, List.length_nil] at hlength
      omega
    · simp [hrest]
  rw [pullBytes, if_neg hnonempty, ← hlength, List.take_left, List.drop_left]

theorem pullBytes_word (hpositive : 0 < width) (value : Nat) :
    pullBytes (leBytes width value ++ rest) width = (.ok, leBytes width value, rest) :=
  pullBytes_append (leBytes_length width value) (Or.inl hpositive)

theorem pullBytes_vector (hpositive : 0 < n) (bytes : Vector UInt8 n) :
    pullBytes (bytes.toList ++ rest) n = (.ok, bytes.toList, rest) :=
  pullBytes_append bytes.length_toList (Or.inl hpositive)

theorem pulledWord_leBytes (width : Nat) {value : Nat} (hvalue : value < 256 ^ width) :
    pulledWord junk width (leBytes width value) = value := by
  rw [pulledWord, leBytes_length, Nat.sub_self, List.replicate_zero, List.append_nil,
    leValue_leBytes, mod_eq_of_lt hvalue]

theorem loadExpiration_append (status : QStatus) (blob : KeyBlob) (expiration : Timespec)
    (rest : List UInt8) :
    loadExpiration junk ⟨status, blob, leBytes 8 expiration.seconds.toNat ++
      leBytes 2 expiration.mseconds.toNat ++ rest⟩ =
      ⟨.ok, { blob with expiration := expiration }, rest⟩ := by
  simp only [loadExpiration, List.append_assoc, pullBytes_word, zero_lt_succ, if_true]
  rw [pulledWord_leBytes junk 8 (by omega), pulledWord_leBytes junk 2 (by omega),
    BitVec.ofNat_toNat, BitVec.ofNat_toNat, BitVec.setWidth_eq, BitVec.setWidth_eq]

theorem loadTag_append (hrest : rest ≠ []) :
    loadTag ⟨status, blob, tag ++ rest⟩ tag.length =
      ⟨.ok, { blob with tag := tag ++ blob.tag }, rest⟩ := by
  simp only [loadTag, pullBytes_append rfl (Or.inr hrest), if_true]

theorem loadLengthAndTag_append (hlength : tag.length ≤ 255) (hrest : rest ≠ []) :
    loadLengthAndTag ⟨status, blob, leBytes 1 tag.length ++ (tag ++ rest)⟩ =
      ⟨.ok, { blob with tag := tag ++ blob.tag }, rest⟩ := by
  simp only [loadLengthAndTag, pullBytes_word, zero_lt_succ, leValue_leBytes]
  rw [mod_eq_of_lt (by omega)]
  exact loadTag_append hrest

theorem loadData_append {data : List UInt8} (hlength : data.length < 65536)
    (hlimit : kbVersion = 0 → data.length ≤ 4096) (hrest : data ≠ [] ∨ rest ≠ []) :
    loadData junk ⟨status, blob, leBytes 2 data.length ++ (data ++ rest)⟩ kbVersion =
      ⟨.ok, { blob with data := data }, rest⟩ := by
  have hsome : 0 < data.length ∨ rest ≠ [] := hrest.imp_left List.length_pos_of_ne_nil
  simp only [loadData, pullBytes_word, zero_lt_succ]
  have hsize : ¬(kbVersion = 0 ∧ data.length > 4096) := by omega
  rw [pulledWord_leBytes junk 2 (by omega), if_neg hsize]
  simp only [if_true, pullBytes_append rfl hsome, Nat.sub_self, List.replicate_zero,
    List.append_nil]

theorem loadAssociation_none (status : QStatus) (blob : KeyBlob) (rest : List UInt8) :
    loadAssociation junk ⟨status, blob, leBytes 1 0 ++ rest⟩ = ⟨.ok, blob, rest⟩ := by
  simp [loadAssociation, pullBytes_word, leValue_leBytes]

theorem loadAssociation_append (status : QStatus) (blob : KeyBlob) (association : Vector UInt8 16)
    (rest : List UInt8) :
    loadAssociation junk
      ⟨status, blob, leBytes 1 16 ++ (association.toList ++ rest)⟩ =
      ⟨.ok, { blob with
        association := association
        associationMode := if blob.associationMode = .head then .both else .member }, rest⟩ := by
  simp [loadAssociation, pullBytes_word, leValue_leBytes, pullBytes_vector]

end Pull

/-! ### What is accepted -/

section Early

variable (junk : UInt8) (flags : BitVec 16) (kbVersion start : Nat) (source : List UInt8)

/-- The length of `width` bytes that stands at `start`, as far as it is present. -/
def lengthAt (width : Nat) : Nat := leValue ((source.drop start).take width)

/-- Where the size of the key stands if the tag begins at `start`. -/
def sizeAt : Nat :=
  if kbVersion = 0 then start + (flags &&& v0MaxTagLen).toNat
  else if kbVersion = 1 then start + 1 + lengthAt start source 1
  else start

/-- The end of the key whose size stands at `start`. -/
def dataEnd : Nat := start + 2 + lengthAt start source 2

/-- What makes `Load` succeed if the size of the key stands at `start`. -/
def Accepts : Prop :=
  start + 2 < source.length ∧
    if kbVersion = 0 then lengthAt start source 2 ≤ 4096
    else
      let len := lengthAt (dataEnd start source) source 1
      dataEnd start source < source.length ∧
        (len = 0 ∨ len = 16 ∧ dataEnd start source + 1 < source.length)

/-- `Load` behind the expiration. -/
def Loading.loadRest (st : Loading) : Loading :=
  let st := st.loadAnyTag flags kbVersion
  let st := if st.status = .ok then st.loadData junk kbVersion else st
  if st.status = .ok ∧ kbVersion > 0 then st.loadAssociation junk else st

theorem pullBytes_drop (n : Nat) :
    pullBytes (source.drop start) n = (if source.length ≤ start then .eof else .ok,
      (source.drop start).take n, source.drop (start + n)) := by
  simp only [pullBytes, List.drop_eq_nil_iff, List.drop_drop]
  split
  · next hend => simp [hend, le_add_right_of_le]
  · rfl

section Stages

variable {start source} (hst : st.source = source.drop start)

include hst

theorem loadExpiration_moves :
    let next := st.loadExpiration junk
    next.source = source.drop (start + 10) ∧ (next.status = .ok ∨ source.length ≤ start + 10) := by
  by_cases hend : source.length ≤ start <;>
    simp [loadExpiration, hst, pullBytes_drop, hend] <;> omega

theorem loadAnyTag_moves (hok : 2 ≤ kbVersion → st.status = .ok) :
    let next := st.loadAnyTag flags kbVersion
    next.source = source.drop (sizeAt flags kbVersion start source) ∧
      (next.status = .ok ∨ source.length ≤ sizeAt flags kbVersion start source) := by
  by_cases hzero : kbVersion = 0
  · by_cases hend : source.length ≤ start <;>
      simp [loadAnyTag, loadTag, sizeAt, hst, pullBytes_drop, hzero, hend]
    omega
  by_cases hone : kbVersion = 1
  · by_cases hend : source.length ≤ start <;> by_cases htag : source.length ≤ start + 1 <;>
      simp [loadAnyTag, loadLengthAndTag, loadTag, sizeAt, lengthAt, hst, pullBytes_drop, hone,
        hend, htag] <;> omega
  · simp [loadAnyTag, sizeAt, hst, hzero, hone, hok (by omega)]

theorem loadData_ok_iff :
    let next := st.loadData junk kbVersion
    (next.status = .ok ↔
      start + 2 < source.length ∧ (kbVersion = 0 → lengthAt start source 2 ≤ 4096)) ∧
    (next.status = .ok → next.source = source.drop (dataEnd start source)) := by
  by_cases hpresent : start + 2 ≤ source.length
  · have hnone : 2 - min 2 (source.length - start) = 0 := by omega
    have hsize : pulledWord junk 2 ((source.drop start).take 2) = lengthAt start source 2 := by
      simp [pulledWord, lengthAt, hnone]
    simp [loadData, hst, pullBytes_drop, dataEnd]
    grind
  · simp [loadData, hst, pullBytes_drop]
    grind

theorem loadAssociation_ok_iff : (st.loadAssociation junk).status = .ok ↔
    start < source.length ∧
      (lengthAt start source 1 = 0 ∨ lengthAt start source 1 = 16 ∧ start + 1 < source.length) := by
  simp [loadAssociation, hst, pullBytes_drop, lengthAt]
  grind

theorem loadRest_ok_iff (hok : 2 ≤ kbVersion → st.status = .ok) :
    (st.loadRest junk flags kbVersion).status = .ok ↔
      Accepts kbVersion (sizeAt flags kbVersion start source) source := by
  obtain ⟨hsize, htag⟩ := loadAnyTag_moves flags kbVersion hst hok
  obtain ⟨hdata, hend⟩ := loadData_ok_iff junk kbVersion hsize
  rw [loadRest, Accepts]
  split
  · split
    · next hboth =>
      rw [loadAssociation_ok_iff junk (hend hboth.1)]
      grind
    · grind
  · grind

end Stages

/-- The type that a first word tells is valid. -/
def isTyped : Prop := ¬(BlobType.ofNat (flags >>> 8).toNat).isInvalid

instance : Decidable (isTyped flags) := inferInstanceAs (Decidable (¬_))

/-- The version that `Load` goes by. -/
def bodyVersion : Nat :=
  if isTyped flags ∧ flags &&& versionFlag ≠ 0 then (flags &&& 0xF).toNat else 0

def tagStart : Nat := if isTyped flags ∧ flags &&& expiresFlag ≠ 0 then 12 else 2

def sizeStart : Nat := sizeAt flags (bodyVersion flags) (tagStart flags) source

theorem loadBody_ok_iff {target : KeyBlob}
    (htype : target.blobType = .ofNat (flags >>> 8).toNat) :
    (loadBody junk flags ⟨.ok, target, source.drop 2⟩).status = .ok ↔
      Accepts (bodyVersion flags) (sizeStart flags source) source := by
  let st := checkType flags ⟨.ok, target, source.drop 2⟩
  let next := if st.status = .ok ∧ flags &&& expiresFlag ≠ 0 then st.loadExpiration junk else st
  let kbVersion :=
    if next.status = .ok ∧ flags &&& versionFlag ≠ 0 then (flags &&& 0xF).toNat else 0
  have hst : st.source = source.drop 2 ∧ (st.status = .ok ↔ isTyped flags) := by
    simp [st, checkType, isTyped]
    grind
  have hnext : next.source = source.drop (tagStart flags) ∧
      ((next.status = .ok ↔ isTyped flags) ∨ source.length ≤ tagStart flags) := by
    have hmoves := loadExpiration_moves junk hst.1
    simp only [tagStart]
    grind
  change (loadRest junk flags kbVersion next).status = .ok ↔ _
  rw [loadRest_ok_iff junk flags kbVersion hnext.1 (by grind), sizeStart]
  rcases hnext.2 with hok | hend
  · have hversion : kbVersion = bodyVersion flags := by simp only [kbVersion, hok, bodyVersion]
    rw [hversion]
  · simp only [Accepts, sizeAt]
    grind

@[simp]
theorem pullBytes_nil (n : Nat) : pullBytes [] n = (.eof, [], []) := rfl

/-- The first word of a source. -/
def firstWord : BitVec 16 := BitVec.ofNat 16 (lengthAt 0 source 2)

@[simp]
theorem Loading.finish_status (st : Loading) : st.finish.status = st.status := by
  rw [finish]
  split <;> rfl

theorem KeyBlob.load_ok_iff (blob : KeyBlob) : (blob.load junk source).status = .ok ↔
    Accepts (bodyVersion (firstWord source)) (sizeStart (firstWord source) source) source := by
  have hload (flags : BitVec 16) :
      (loadBody junk flags ⟨.ok, { blob.erase with blobType := .ofNat (flags >>> 8).toNat },
        source.drop 2⟩).status = .ok ↔ Accepts (bodyVersion flags) (sizeStart flags source) source :=
    loadBody_ok_iff junk flags source rfl
  by_cases hword : 2 ≤ source.length
  · have hpulled : pulledWord junk 2 (source.take 2) = lengthAt 0 source 2 := by
      simp [pulledWord, lengthAt, hword]
    have hsome : source ≠ [] := List.ne_nil_of_length_pos (by omega)
    simp [load, pullBytes, hsome, hpulled, ← hload, firstWord]
  · have hnone (flags : BitVec 16) : ¬Accepts (bodyVersion flags) (sizeStart flags source) source :=
      fun haccepts => by
        have hlength := haccepts.1
        omega
    by_cases hsome : source = []
    · subst hsome
      simp [load, hnone]
    · simp only [load, pullBytes, hsome, if_false, if_true, finish_status, hnone, iff_false]
      exact (hload _).not.mpr (hnone _)

/-- The source begins with every byte that a blob with a valid type announces. -/
def Complete : Prop :=
  let keyEnd := dataEnd (sizeStart (firstWord source) source) source
  isTyped (firstWord source) ∧
    if bodyVersion (firstWord source) = 0 then keyEnd ≤ source.length
    else keyEnd + 1 + lengthAt keyEnd source 1 ≤ source.length

/-- A type that is not valid with a key of up to 4096 bytes, or a last field of which some bytes
are there and others are not: the key in version 0, the association in the others. -/
def Cut : Prop :=
  let start := sizeStart (firstWord source) source
  let keyEnd := dataEnd start source
  if bodyVersion (firstWord source) = 0 then
    start + 2 < source.length ∧ lengthAt start source 2 ≤ 4096 ∧
      (isTyped (firstWord source) → source.length < keyEnd)
  else
    lengthAt keyEnd source 1 = 16 ∧ keyEnd + 1 < source.length ∧ source.length < keyEnd + 17

/-- `Load` succeeds only on a complete blob, and leaves an empty one otherwise, exactly if the
source is not cut. -/
theorem load_complete_iff (blob : KeyBlob) :
    let st := blob.load junk source
    ((st.status = .ok → Complete source) ∧
      (¬Complete source → st.status ≠ .ok ∧ st.blob.blobType = .empty)) ↔ ¬Cut source := by
  have hempty : (blob.load junk source).status ≠ .ok →
      (blob.load junk source).blob.blobType = .empty := by
    simp only [load]
    grind [finish]
  have hversion : bodyVersion (firstWord source) ≠ 0 → isTyped (firstWord source) := by
    grind [bodyVersion]
  have hcut : Cut source ↔ (blob.load junk source).status = .ok ∧ ¬Complete source := by
    rw [load_ok_iff]
    simp only [Cut, Accepts, Complete]
    grind [dataEnd]
  grind

/-- A key of four bytes of which one is there, and the type 9 with a key of one byte. -/
theorem load_cut :
    let accepts (source : List UInt8) := ((KeyBlob.new 0).load 0 source).status = .ok
    accepts [0, 1, 4, 0, 7] ∧ ¬Complete [0, 1, 4, 0, 7] ∧
      accepts [0, 9, 1, 0, 7] ∧ ¬Complete [0, 9, 1, 0, 7] := by
  simp only [Complete]
  decide +kernel

end Early

/-! ### The round trip -/

section RoundTrip

variable (junk : UInt8) (version : Nat)

/-- `KeyBlob::GetExpiration`. -/
def KeyBlob.expires (blob : KeyBlob) : Option Timespec :=
  if blob.expiration.seconds ≠ 0 then some blob.expiration else none

/-- The node a blob is associated with. -/
def KeyBlob.associated (blob : KeyBlob) : Option (Vector UInt8 16) :=
  if blob.isMember then some blob.association else none

/-- The same key under the same type, tag, expiration and association. -/
structure Same (loaded blob : KeyBlob) : Prop where
  blobType : loaded.blobType = blob.blobType
  tag : loaded.tag = blob.tag
  expires : loaded.expires = blob.expires
  associationMode : loaded.associationMode = blob.associationMode
  associated : loaded.associated = blob.associated
  data : loaded.data = blob.data

/-- Whatever follows the bytes of a blob in a source, a new blob loads it and
leaves what follows. -/
def KeyBlob.RoundTrips (blob : KeyBlob) : Prop :=
  ∀ rest, ∃ loaded, (KeyBlob.new version).load junk (blob.store ++ rest) = ⟨.ok, loaded, rest⟩ ∧
    Same loaded blob

/-- The blob that a new one becomes. -/
def KeyBlob.reloaded (blob : KeyBlob) (mode : AssociationMode) : KeyBlob where
  version := version
  blobType := blob.blobType
  expiration := if blob.expiration.seconds ≠ 0 then blob.expiration else ⟨0, 0⟩
  data := blob.data
  tag := blob.tag
  associationMode := mode
  association := if blob.version ≠ 0 ∧ blob.isMember then blob.association
    else Vector.replicate 16 0

/-- The mode that is loaded with a blob of version 0. -/
def KeyBlob.tagMode (blob : KeyBlob) : AssociationMode :=
  if 32 ≤ blob.tag.length then .head else .none

variable {blob : KeyBlob}

/-- The bytes behind the tag. -/
def KeyBlob.storedKey (blob : KeyBlob) : List UInt8 :=
  leBytes 2 blob.data.length ++ (blob.data ++
    if blob.version ≠ 0 then
      if blob.isMember then leBytes 1 16 ++ blob.association.toList else leBytes 1 0
    else [])

/-- The bytes of the expiration. -/
def KeyBlob.storedExpiration (blob : KeyBlob) : List UInt8 :=
  if blob.expiration.seconds ≠ 0 then
    leBytes 8 blob.expiration.seconds.toNat ++ leBytes 2 blob.expiration.mseconds.toNat
  else []

theorem KeyBlob.store_eq (hdata : blob.data.length < 65536)
    (hflags : Says blob.flags type head (blob.expiration.seconds ≠ 0) kbVersion)
    (hsome : blob.blobType ≠ .empty) :
    blob.store = leBytes 2 blob.flags.toNat ++ (blob.storedExpiration ++
      ((if blob.version ≠ 0 then leBytes 1 blob.tag.length else []) ++
        (blob.tag ++ blob.storedKey))) := by
  have hsize : blob.data.length % 65536 = blob.data.length := mod_eq_of_lt hdata
  have hexpires := hflags.expires
  rw [decide_eq_true_eq] at hexpires
  simp only [store, if_neg hsome, hsize, List.take_length, hexpires,
    storedExpiration, storedKey, List.append_assoc]

theorem KeyBlob.load_append (flags : BitVec 16) (body : List UInt8) :
    (new version).load junk (leBytes 2 flags.toNat ++ body) =
      (loadBody junk flags
        ⟨.ok, { new version with blobType := .ofNat (flags >>> 8).toNat }, body⟩).finish := by
  have herase : (new version).erase = new version := rfl
  have hword : BitVec.ofNat 16 (pulledWord junk 2 (leBytes 2 flags.toNat)) = flags := by
    rw [pulledWord_leBytes junk 2 (by omega), BitVec.ofNat_toNat, BitVec.setWidth_eq]
  simp [load, pullBytes_word, hword, herase]

/-- A new blob with the type, expiration and mode that the first word tells. -/
def KeyBlob.opened (blob : KeyBlob) (head : Bool) : KeyBlob :=
  { KeyBlob.new version with
    blobType := blob.blobType
    associationMode := if head then .head else .none
    expiration := if blob.expiration.seconds ≠ 0 then blob.expiration else ⟨0, 0⟩ }

theorem loadBody_stored {flags : BitVec 16}
    (hflags : Says flags type head (blob.expiration.seconds ≠ 0) kbVersion)
    (hvalid : blob.blobType.isInvalid = false) {rest' : List UInt8} {tagged : KeyBlob}
    (htag : loadAnyTag flags kbVersion ⟨.ok, blob.opened version head, rest⟩ =
      ⟨.ok, tagged, rest'⟩) (hdata : loadData junk ⟨.ok, tagged, rest'⟩ kbVersion = st) :
    loadBody junk flags
      ⟨.ok, { new version with blobType := blob.blobType },
        blob.storedExpiration ++ rest⟩ =
      if st.status = .ok ∧ kbVersion > 0 then st.loadAssociation junk else st := by
  have hexpires := hflags.expires
  rw [decide_eq_true_eq] at hexpires
  have hcheck : ∀ source, checkType flags
      ⟨.ok, { new version with blobType := blob.blobType }, source⟩ =
      ⟨.ok, { new version with
        blobType := blob.blobType
        associationMode := if head then .head else .none }, source⟩ := by
    intro source
    simp only [checkType, hvalid, Bool.false_eq_true, if_false, hflags.head]
    split <;> rfl
  have hexpiration : ∀ target : KeyBlob, (if flags &&& expiresFlag ≠ 0 then
        loadExpiration junk ⟨.ok, target, blob.storedExpiration ++ rest⟩
      else ⟨.ok, target, blob.storedExpiration ++ rest⟩) =
      ⟨.ok, { target with
        expiration := if blob.expiration.seconds ≠ 0 then blob.expiration else target.expiration },
        rest⟩ := by
    intro target
    simp only [hexpires, storedExpiration]
    split
    · exact loadExpiration_append junk .ok target blob.expiration rest
    · rfl
  rw [loadBody, hcheck]
  simp only [true_and, hexpiration, hflags.kbVersion]
  change loadRest junk flags kbVersion ⟨.ok, blob.opened version head, rest⟩ = _
  simp [loadRest, htag, hdata]

theorem leBytes_append_ne_nil (hpositive : 0 < width) (value : Nat) (rest : List UInt8) :
    leBytes width value ++ rest ≠ [] := by
  intro hnil
  have hlength := leBytes_length width value
  rw [(List.append_eq_nil_iff.mp hnil).1, List.length_nil] at hlength
  omega

/-- `Load` behind the tag, which `loadAnyTag` finds in either version. -/
theorem KeyBlob.load_stored (htype : blob.blobType.toNat < 9) (hdata : blob.data.length < 65536)
    (hsome : blob.blobType ≠ .empty) (rest : List UInt8)
    (hflags : Says blob.flags blob.blobType.toNat head (blob.expiration.seconds ≠ 0) kbVersion)
    (htag : ∀ rest ≠ [], loadAnyTag blob.flags kbVersion ⟨.ok, blob.opened version head,
      (if blob.version ≠ 0 then leBytes 1 blob.tag.length else []) ++ (blob.tag ++ rest)⟩ =
      ⟨.ok, { blob.opened version head with tag := blob.tag ++ [] }, rest⟩) :
    (new version).load junk (blob.store ++ rest) =
      (let st := loadData junk ⟨.ok, { blob.opened version head with
          tag := blob.tag ++ [] }, blob.storedKey ++ rest⟩ kbVersion
      if st.status = .ok ∧ kbVersion > 0 then st.loadAssociation junk else st).finish := by
  obtain ⟨hofNat, hvalid⟩ := BlobType.ofNat_toNat htype
  have hkey : blob.storedKey ++ rest ≠ [] := by
    rw [storedKey, List.append_assoc]
    exact leBytes_append_ne_nil (by decide) _ _
  rw [store_eq hdata hflags hsome]
  simp only [List.append_assoc]
  rw [load_append, hflags.type, hofNat,
    loadBody_stored junk version hflags hvalid (htag _ hkey) rfl]

section Version0

variable (hlegal : blob.Legal) (hversion : blob.version = 0) (hsome : blob.blobType ≠ .empty)

include hlegal hversion hsome

/-- In version 0 the key is the last thing that is pulled. -/
theorem KeyBlob.load_version0 (rest : List UInt8) :
    (new version).load junk (blob.store ++ rest) =
      (loadData junk ⟨.ok, { blob.opened version (decide (32 ≤ blob.tag.length)) with
        tag := blob.tag ++ [] }, leBytes 2 blob.data.length ++ (blob.data ++ rest)⟩ 0).finish := by
  obtain ⟨hflags, htag⟩ := flags_version0 hlegal hversion
  have hdata := hlegal.data
  rw [load_stored junk version hlegal.type (by omega) hsome rest hflags]
  · simp [storedKey, hversion]
  · intro rest hrest
    rw [if_neg (not_not_intro hversion), loadAnyTag, htag]
    exact loadTag_append hrest

theorem KeyBlob.reload_version0 (hkey : blob.data ≠ [] ∨ rest ≠ []) :
    (new version).load junk (blob.store ++ rest) =
      ⟨.ok, blob.reloaded version blob.tagMode, rest⟩ := by
  have hdata := hlegal.data
  rw [load_version0 junk version hlegal hversion hsome,
    loadData_append junk (by omega) (fun _ => hlegal.data) hkey]
  simp [finish, opened, reloaded, tagMode, hversion, new]

/-- Nothing can be pulled behind a key of no bytes, not even the key. -/
theorem KeyBlob.load_version0_noKey (hkey : blob.data = []) :
    ((new version).load junk (blob.store ++ [])).status ≠ .ok := by
  have hpull : pullBytes (leBytes 2 0 ++ []) 2 = (.ok, leBytes 2 0, []) :=
    pullBytes_word (by decide) 0
  have hword : pulledWord junk 2 (leBytes 2 0) = 0 := pulledWord_leBytes junk 2 (by decide)
  rw [load_version0 junk version hlegal hversion hsome, hkey,
    List.length_nil, List.nil_append]
  simp only [loadData, hpull, hword]
  simp

end Version0

theorem KeyBlob.load_empty (hempty : blob.blobType = .empty) :
    ((new version).load junk (blob.store ++ [])).status ≠ .ok := by
  intro hok
  have hlength := ((load_ok_iff junk _ _).mp hok).1
  simp [store, hempty] at hlength

theorem KeyBlob.mode_eq (blob : KeyBlob) : blob.associationMode =
    if blob.isMember then if blob.isHead then .both else .member
    else if blob.isHead then .head else .none := by
  rw [isMember, isHead]
  cases blob.associationMode <;> rfl

theorem KeyBlob.load_version1 (hvalidType : blob.blobType.toNat < 9)
    (htag : blob.tag.length ≤ 255) (hdata : blob.data.length < 65536) (hversion : blob.version = 1)
    (hsome : blob.blobType ≠ .empty) (rest : List UInt8) :
    (new version).load junk (blob.store ++ rest) =
      ⟨.ok, blob.reloaded version blob.associationMode, rest⟩ := by
  have hflags := flags_version1 hvalidType hversion
  have hone : blob.version ≠ 0 := by omega
  have hend : (if blob.isMember then leBytes 1 16 ++ blob.association.toList else leBytes 1 0) ++
      rest ≠ [] := by
    split
    · rw [List.append_assoc]
      exact leBytes_append_ne_nil (by decide) _ _
    · exact leBytes_append_ne_nil (by decide) _ _
  rw [load_stored junk version hvalidType hdata hsome rest hflags, storedKey,
    if_pos hone, List.append_assoc, List.append_assoc,
    loadData_append junk hdata (by omega) (Or.inr hend)]
  swap
  · intro rest hrest
    rw [if_pos hone]
    exact loadLengthAndTag_append htag hrest
  have hmode := blob.mode_eq
  cases hmember : blob.isMember with
  | true =>
    simp only [if_true] at hmode ⊢
    rw [List.append_assoc, loadAssociation_append, finish]
    cases hhead : blob.isHead <;>
      simp [opened, reloaded, new, hmode, hhead, hone, hmember]
  | false =>
    simp only [Bool.false_eq_true, if_false] at hmode ⊢
    rw [loadAssociation_none, finish]
    cases hhead : blob.isHead <;>
      simp [opened, reloaded, new, hmode, hhead, hmember]

theorem KeyBlob.same_reloaded {mode : AssociationMode} (hmode : mode = blob.associationMode)
    (hassociated : blob.version = 0 → blob.isMember = false) :
    Same (blob.reloaded version mode) blob where
  blobType := rfl
  tag := rfl
  expires := by
    simp only [expires, reloaded]
    split <;> simp_all
  associationMode := hmode
  associated := by
    have hmember : (blob.reloaded version mode).isMember = blob.isMember := by
      simp only [isMember, reloaded, hmode]
    rw [associated, associated, hmember]
    cases hcase : blob.isMember with
    | false => rfl
    | true =>
      have hversion : blob.version ≠ 0 := by
        intro hzero
        rw [hassociated hzero] at hcase
        cases hcase
      simp [reloaded, hcase, hversion]
  data := rfl

/-- The blobs that survive: those that are not empty and, in version 0, have a
key and the mode that the length of their tag stands for. -/
def KeyBlob.Storable (blob : KeyBlob) : Prop :=
  blob.blobType ≠ .empty ∧
    (blob.version = 0 → blob.data ≠ [] ∧ blob.associationMode = blob.tagMode)

/-- A blob is loaded as it was stored exactly if it is storable. -/
theorem keyBlob_roundTrips_iff (hlegal : blob.Legal) :
    blob.RoundTrips junk version ↔ blob.Storable := by
  constructor
  · intro hround
    obtain ⟨loaded, hload, hsame⟩ := hround []
    have hsome : blob.blobType ≠ .empty := by
      intro hempty
      exact load_empty junk version hempty (by rw [hload])
    refine ⟨hsome, ?_⟩
    intro hversion
    have hkey : blob.data ≠ [] := by
      intro hkey
      exact load_version0_noKey junk version hlegal hversion hsome hkey (by rw [hload])
    refine ⟨hkey, ?_⟩
    rw [reload_version0 junk version hlegal hversion hsome (Or.inl hkey)] at hload
    rw [← hsame.associationMode, ← (mk.inj hload).2.1]
    rfl
  · rintro ⟨hsome, hzero⟩ rest
    rcases Nat.eq_zero_or_pos blob.version with hversion | hversion
    · obtain ⟨hkey, hmode⟩ := hzero hversion
      refine ⟨_, reload_version0 junk version hlegal hversion hsome (Or.inl hkey), ?_⟩
      apply same_reloaded version hmode.symm
      intro _
      rw [isMember, hmode, tagMode]
      split <;> rfl
    · have hone : blob.version = 1 := by
        have hle := hlegal.version
        omega
      have htag := hlegal.tag
      have hdata := hlegal.data
      rw [if_neg (by omega)] at htag
      refine ⟨_, load_version1 junk version hlegal.type htag (by omega) hone hsome rest, ?_⟩
      exact same_reloaded version rfl (by omega)

/-- An AES key of 16 bytes with an expiration, as a header node. -/
def headerKey : KeyBlob where
  version := 1
  blobType := .aes
  expiration := ⟨1447718400, 250⟩
  data := List.replicate 16 7
  tag := [0x41, 0x4A]
  associationMode := .head
  association := Vector.replicate 16 0

theorem headerKey_roundTrips : headerKey.Legal ∧ headerKey.RoundTrips 0 1 := by
  have hlegal : headerKey.Legal := ⟨by decide, by decide, by decide, by decide⟩
  exact ⟨hlegal, (keyBlob_roundTrips_iff 0 1 hlegal).mpr
    ⟨by decide, fun hversion => absurd hversion (by decide)⟩⟩

/-- The empty blob is within all limits and is not loaded from what it stores. -/
theorem emptyBlob_not_roundTrips :
    (KeyBlob.new 1).Legal ∧ ¬(KeyBlob.new 1).RoundTrips 0 1 := by
  refine ⟨⟨by decide, by decide, by decide, by decide⟩, ?_⟩
  intro hround
  obtain ⟨loaded, hload, -⟩ := hround []
  exact load_empty 0 1 rfl (by rw [hload])

end RoundTrip

end AllJoyn.Crypto
