import AllJoyn.Keys.KeyStore

/-!
The storage of a key store as bytes (`KeyStore::Push` and `KeyStore::Pull`): a
header and the keys, encrypted with AES-CCM under a key that is derived from the
password and the GUID of the key store. Words are those of a 64-bit
little-endian host.
-/

namespace AllJoyn.Keys

open Crypto Lib Lib.Bytes Loading

variable {record : KeyRecord} {persistentKeys : KeyMap} {thisGuid : Vector UInt8 16}
  {store : KeyStore} {bytes : List UInt8}

/-- AES-CCM with an authentication field of 16 bytes, and the derivation of the
key of a key store. -/
structure Ccm where
  AesKey : Type
  derive : List UInt8 → Vector UInt8 16 → AesKey
  /-- The key that older versions derive from the password alone. -/
  deriveAlternate : List UInt8 → AesKey
  encrypt : AesKey → List UInt8 → List UInt8 → Except QStatus (List UInt8)
  decrypt : AesKey → List UInt8 → List UInt8 → Except QStatus (List UInt8)
  encrypt_length : ∀ {key nonce plain cipher}, encrypt key nonce plain = .ok cipher →
    cipher.length = plain.length + 16
  decrypt_encrypt : ∀ {key nonce plain cipher}, encrypt key nonce plain = .ok cipher →
    decrypt key nonce cipher = .ok plain

def KeyType.toNat : KeyType → Nat
  | .remote => 0
  | .local => 1
  | .unknown excess => excess + 2

def KeyType.ofNat : Nat → KeyType
  | 0 => .remote
  | 1 => .local
  | excess + 2 => .unknown excess

def lowStoreVersion : Nat := 0x0102
def mixupGuidKeyStoreVersion : Nat := 0x0103
def compositeKeyKeyStoreVersion : Nat := 0x0104
def keyStoreVersion : Nat := 0x0104

section

variable (ccm : Ccm) (password : List UInt8)

/-! ### Push -/

/-- What `Push` writes for one key. -/
def recordBytes (key : Key) (record : KeyRecord) : List UInt8 :=
  leBytes 4 record.revision ++ leBytes 4 key.type.toNat ++ key.guid.toList ++
    record.keyBlob.store ++ record.accessRights.toList

def keysBytes (entries : List (Σ _ : Key, KeyRecord)) : List UInt8 :=
  entries.flatMap fun entry => recordBytes entry.1 entry.2

/-- `Push` into a sink that takes every byte. The key of the key store is the one
built from its password and its GUID. -/
def push (thisGuid : Vector UInt8 16) (store : KeyStore) : Except QStatus (List UInt8) := do
  let revision := nextRevision store.revision
  let header := leBytes 2 keyStoreVersion ++ leBytes 4 revision ++ thisGuid.toList
  let keys := keysBytes store.keys.entries
  if keys.length > 0 then
    let keysData ← ccm.encrypt (ccm.derive password thisGuid) (leBytes 4 revision) keys
    return header ++ leBytes 8 keysData.length ++ keysData
  else return header ++ leBytes 8 0

/-! ### Pull -/

/-- The members that `Pull` sets. -/
structure Pulling where
  status : QStatus
  thisGuid : Vector UInt8 16
  persistentRevision : Nat
  persistentKeys : KeyMap

variable (junk : UInt8)

/-- Bytes pulled into a buffer that held `old` before. -/
def pulledBuffer {n : Nat} (old : Vector UInt8 n) (pulled : List UInt8) : Vector UInt8 n :=
  Vector.ofFn fun i : Fin n => pulled.getD i (old.get i)

/-- A record that the map makes for a new key. -/
def defaultRecord : KeyRecord := ⟨⟨0, KeyBlob.new 1, Vector.replicate 4 junk⟩, false⟩

/-- The access rights of a key in an old key store. -/
def defaultRights : Vector UInt8 4 := Vector.replicate 4 0x03

/-- The blob and the access rights of a record, behind its key. -/
def pullRecord (version rev : Nat) (key : Key) (persistentKeys : KeyMap) (source : List UInt8) :
    QStatus × KeyMap × List UInt8 :=
  let keyRec := (persistentKeys.lookup key).getD (defaultRecord junk)
  let loading := keyRec.keyBlob.load junk source
  let keyRec := { keyRec with persisted := true, revision := rev, keyBlob := loading.blob }
  if loading.status = .ok then
    if version > lowStoreVersion then
      let (status, rights, source) := pullBytes loading.source 4
      let keyRec := { keyRec with accessRights := pulledBuffer keyRec.accessRights rights }
      (status, persistentKeys.insert key keyRec, source)
    else
      (.ok, persistentKeys.insert key { keyRec with accessRights := defaultRights },
        loading.source)
  else (loading.status, persistentKeys.insert key keyRec, loading.source)

/-- The type of a key. In old key stores every key is a remote one. -/
def pullKeyType (version : Nat) (source : List UInt8) : QStatus × KeyType × List UInt8 :=
  if version ≥ compositeKeyKeyStoreVersion then
    let (status, keyType, source) := pullBytes source 4
    (status, .ofNat (pulledWord 0 4 keyType), source)
  else (.ok, .remote, source)

/-- The loop over the records. Every round takes a byte at least. -/
def pullRecords (version : Nat) :
    Nat → Vector UInt8 16 → List UInt8 → KeyMap → QStatus × KeyMap
  | 0, _, _, persistentKeys => (.ok, persistentKeys)
  | fuel + 1, guidBuf, source, persistentKeys =>
    let (status, rev, source) := pullBytes source 4
    if status ≠ .ok then (status, persistentKeys)
    else
      let (status, keyType, source) := pullKeyType version source
      if status ≠ .ok then (status, persistentKeys)
      else
        let (status, guid, source) := pullBytes source 16
        if status ≠ .ok then (status, persistentKeys)
        else
          let guidBuf := pulledBuffer guidBuf guid
          let key := ⟨keyType, guidBuf⟩
          let (status, persistentKeys, source) :=
            pullRecord junk version (pulledWord junk 4 rev) key persistentKeys source
          if status ≠ .ok then (status, persistentKeys)
          else pullRecords version fuel guidBuf source persistentKeys

/-- The keys behind the length. The buffer for a GUID still holds the one of the
key store. With the alternate key the length is the one that
the failed decryption leaves, which is 0. -/
def pullKeys (version len : Nat) (st : Pulling) (source : List UInt8) : QStatus × KeyMap :=
  let (status, data, _) := pullBytes source len
  if data.length ≠ len then (.busCorruptKeystore, st.persistentKeys)
  else if status ≠ .ok then (status, st.persistentKeys)
  else
    let nonce := leBytes 4 st.persistentRevision
    let decrypted := match ccm.decrypt (ccm.derive password st.thisGuid) nonce data with
      | .ok plain => Except.ok plain
      | .error status =>
        if version ≤ mixupGuidKeyStoreVersion then
          match ccm.decrypt (ccm.deriveAlternate password) nonce data with
          | .ok _ => .ok []
          | .error status => .error status
        else .error status
    match decrypted with
    | .error status => (status, st.persistentKeys)
    | .ok plain =>
      let (status, persistentKeys) :=
        pullRecords junk version (plain.length + 1) st.thisGuid plain st.persistentKeys
      (if status = .eof then .ok else status, persistentKeys)

/-- `Pull` behind the header. -/
def pullBody (version : Nat) (st : Pulling) (source : List UInt8) : Pulling :=
  let (status, len, source) := pullBytes source 8
  let len := pulledWord 0 8 len
  if status ≠ .ok then { st with status := status, persistentKeys := ∅ }
  else if len > 64000 then { st with status := .busCorruptKeystore, persistentKeys := ∅ }
  else if len > 0 then
    let (status, persistentKeys) := pullKeys ccm password junk version len st source
    { st with
      status := status
      persistentKeys := if status ≠ .ok then ∅ else persistentKeys }
  else { st with status := .ok }

/-- The version, the revision and the GUID. -/
def pullHeader (thisGuid : Vector UInt8 16) (source : List UInt8) :
    QStatus × Nat × Nat × Vector UInt8 16 × List UInt8 :=
  let (status, version, source) := pullBytes source 2
  let version := pulledWord junk 2 version
  if status ≠ .ok then (status, version, 0, thisGuid, source)
  else if version > keyStoreVersion ∨ version < lowStoreVersion then
    (.busKeystoreVersionMismatch, version, 0, thisGuid, source)
  else
    let (status, revision, source) := pullBytes source 4
    let revision := pulledWord 0 4 revision
    if status ≠ .ok then (status, version, revision, thisGuid, source)
    else
      let (status, guid, source) := pullBytes source 16
      (status, version, revision, pulledBuffer (Vector.replicate 16 junk) guid, source)

/-- `Pull` into a key store that has been created with the GUID `thisGuid` and
not been loaded. A source that ends before the keys is an empty key store. -/
def pull (thisGuid : Vector UInt8 16) (source : List UInt8) : Pulling :=
  let (status, version, revision, thisGuid, source) := pullHeader junk thisGuid source
  if status = .eof then ⟨.ok, thisGuid, 0, ∅⟩
  else if status ≠ .ok then ⟨status, thisGuid, revision, ∅⟩
  else pullBody ccm password junk version ⟨.ok, thisGuid, revision, ∅⟩ source

end

/-! ### One record -/

/-- A blob as its class can build it. -/
structure WellFormed (blob : KeyBlob) : Prop where
  version : blob.version ≤ 1
  type : blob.blobType.toNat < 9
  nonempty : blob.blobType ≠ .empty
  tag : blob.tag.length ≤ 255
  data : blob.data.length < 65536

/-- Numbers of the key and the record fit their words, and the blob is well
formed. -/
structure Storable (key : Key) (record : KeyRecord) : Prop where
  type : key.type.toNat < 2 ^ 32
  revision : record.revision < 2 ^ 32
  keyBlob : WellFormed record.keyBlob

/-- Two blobs with the same content in the same version. -/
structure SameBlob (loaded blob : KeyBlob) : Prop where
  content : Same loaded blob
  version : loaded.version = blob.version

structure SameRecord (loaded record : KeyRecord) : Prop where
  keyBlob : SameBlob loaded.keyBlob record.keyBlob
  accessRights : loaded.accessRights = record.accessRights
  revision : loaded.revision = record.revision

/-- The record that a pushed one becomes. -/
def reloadedRecord (record : KeyRecord) : KeyRecord where
  revision := record.revision
  keyBlob := record.keyBlob.reloaded 1 record.keyBlob.associationMode
  accessRights := record.accessRights
  persisted := true

theorem sameRecord_reloaded (hversion : record.keyBlob.version = 1) :
    SameRecord (reloadedRecord record) record where
  keyBlob := ⟨KeyBlob.same_reloaded 1 rfl (by omega), hversion.symm⟩
  accessRights := rfl
  revision := rfl

theorem KeyType.ofNat_toNat (type : KeyType) : KeyType.ofNat type.toNat = type := by
  cases type <;> rfl

theorem pulledBuffer_toList {n : Nat} (old bytes : Vector UInt8 n) :
    pulledBuffer old bytes.toList = bytes := by
  ext i hi
  simp [pulledBuffer]

section Records

variable (junk : UInt8)

section Pull

variable {key : Key} (hstorable : Storable key record) (hversion : record.keyBlob.version = 1)
  (hnew : persistentKeys.lookup key = none)

include hstorable hversion hnew

theorem pullRecord_append (rest : List UInt8) :
    pullRecord junk keyStoreVersion record.revision key persistentKeys
        (record.keyBlob.store ++ (record.accessRights.toList ++ rest)) =
      (.ok, persistentKeys.insert key (reloadedRecord record), rest) := by
  have hblob := hstorable.keyBlob
  have hload := KeyBlob.load_version1 junk 1 hblob.type hblob.tag hblob.data hversion
    hblob.nonempty (record.accessRights.toList ++ rest)
  unfold pullRecord
  rw [hnew, Option.getD_none, defaultRecord]
  dsimp only
  rw [hload]
  rw [pullBytes_vector (by decide)]
  rw [pulledBuffer_toList]
  rfl

theorem pullRecords_append (fuel : Nat) (guidBuf : Vector UInt8 16) (rest : List UInt8) :
    pullRecords junk keyStoreVersion (fuel + 1) guidBuf (recordBytes key record ++ rest)
        persistentKeys =
      pullRecords junk keyStoreVersion fuel key.guid rest
        (persistentKeys.insert key (reloadedRecord record)) := by
  have hrev : pulledWord junk 4 (leBytes 4 record.revision) = record.revision :=
    pulledWord_leBytes junk 4 hstorable.revision
  have hkeyType : ∀ rest, pullKeyType keyStoreVersion (leBytes 4 key.type.toNat ++ rest) =
      (.ok, key.type, rest) := by
    intro rest
    rw [pullKeyType, if_pos (by decide), pullBytes_word (by decide)]
    dsimp only
    rw [pulledWord_leBytes 0 4 hstorable.type, KeyType.ofNat_toNat]
  rw [recordBytes, pullRecords]
  simp [pullBytes_word, hkeyType, pullBytes_vector, hrev, pulledBuffer_toList,
    pullRecord_append junk hstorable hversion hnew]

end Pull

theorem pullRecords_nil (version fuel : Nat) (guidBuf : Vector UInt8 16) (persistentKeys : KeyMap) :
    pullRecords junk version (fuel + 1) guidBuf [] persistentKeys = (.eof, persistentKeys) := by
  simp [pullRecords]

theorem recordBytes_length_pos (key : Key) (record : KeyRecord) :
    0 < (recordBytes key record).length := by
  simp only [recordBytes, List.length_append, leBytes_length]
  omega

variable {entries : List (Σ _ : Key, KeyRecord)} {revision size : Nat} {cipher : List UInt8}

/-- The loop over the records of a map, by induction on its entries: each finds
its key new. -/
theorem pullRecords_keysBytes (hkeys : entries.NodupKeys)
    (hstorable : ∀ entry ∈ entries, Storable entry.1 entry.2)
    (hversion : ∀ entry ∈ entries, entry.2.keyBlob.version = 1) (persistentKeys : KeyMap)
    (hnew : ∀ entry ∈ entries, persistentKeys.lookup entry.1 = none) {fuel : Nat}
    (hfuel : (keysBytes entries).length < fuel) (guidBuf : Vector UInt8 16) :
    pullRecords junk keyStoreVersion fuel guidBuf (keysBytes entries) persistentKeys =
      (.eof, entries.foldl (fun map entry => map.insert entry.1 (reloadedRecord entry.2))
        persistentKeys) := by
  induction entries generalizing persistentKeys fuel guidBuf with
  | nil =>
    obtain ⟨fuel, rfl⟩ := Nat.exists_eq_succ_of_ne_zero (Nat.ne_of_gt (Nat.zero_lt_of_lt hfuel))
    exact pullRecords_nil junk keyStoreVersion fuel guidBuf persistentKeys
  | cons entry rest ih =>
    obtain ⟨hfresh, hrest⟩ := List.nodupKeys_cons.mp hkeys
    obtain ⟨fuel, rfl⟩ := Nat.exists_eq_succ_of_ne_zero (Nat.ne_of_gt (Nat.zero_lt_of_lt hfuel))
    have hbytes : keysBytes (entry :: rest) = recordBytes entry.1 entry.2 ++ keysBytes rest := rfl
    have hpositive := recordBytes_length_pos entry.1 entry.2
    rw [hbytes, List.length_append] at hfuel
    rw [hbytes, pullRecords_append junk (hstorable entry List.mem_cons_self)
      (hversion entry List.mem_cons_self) (hnew entry List.mem_cons_self)]
    refine ih hrest (fun other hother => hstorable other (List.mem_cons_of_mem _ hother))
      (fun other hother => hversion other (List.mem_cons_of_mem _ hother)) _ ?_ (by omega) _
    intro other hother
    have hne : other.1 ≠ entry.1 := by
      intro heq
      exact hfresh (heq ▸ List.mem_keys_of_mem hother)
    rw [AList.lookup_insert_ne hne]
    exact hnew other (List.mem_cons_of_mem _ hother)

end Records

/-! ### Versions

A blob that is loaded keeps its version, so that all that are pulled have
version 1. -/

section Versions

variable (junk : UInt8)

variable (flags : BitVec 16)

theorem Loading.checkType_version (st : Loading) :
    (st.checkType flags).blob.version = st.blob.version := by
  unfold checkType
  split
  · rfl
  · split <;> rfl

variable (st : Loading)

theorem Loading.loadExpiration_version :
    (st.loadExpiration junk).blob.version = st.blob.version := by
  unfold loadExpiration
  dsimp only
  split <;> rfl

theorem Loading.loadTag_version (tagLen : Nat) :
    (st.loadTag tagLen).blob.version = st.blob.version := by
  unfold loadTag
  dsimp only
  split <;> rfl

theorem Loading.loadAnyTag_version (kbVersion : Nat) (st : Loading) :
    (st.loadAnyTag flags kbVersion).blob.version = st.blob.version := by
  unfold loadAnyTag
  split
  · exact loadTag_version st _
  · split
    · unfold loadLengthAndTag
      dsimp only
      split
      · exact loadTag_version _ _
      · rfl
    · rfl

theorem Loading.loadData_version (kbVersion : Nat) (st : Loading) :
    (st.loadData junk kbVersion).blob.version = st.blob.version := by
  unfold loadData
  dsimp only
  split_ifs <;> rfl

theorem Loading.loadAssociation_version :
    (st.loadAssociation junk).blob.version = st.blob.version := by
  unfold loadAssociation
  dsimp only
  split
  · split <;> rfl
  · rfl

theorem Loading.finish_version : st.finish.blob.version = st.blob.version := by
  unfold finish
  split <;> rfl

theorem Loading.ite_version {p : Prop} [Decidable p] {first second : Loading}
    (h : first.blob.version = second.blob.version) :
    (if p then first else second).blob.version = second.blob.version := by
  split
  · exact h
  · rfl

theorem Loading.loadBody_version (st : Loading) :
    (st.loadBody junk flags).blob.version = st.blob.version := by
  refine (ite_version (loadAssociation_version junk _)).trans ?_
  refine (ite_version (loadData_version junk _ _)).trans ?_
  refine (loadAnyTag_version flags _ _).trans ?_
  refine (ite_version (loadExpiration_version junk _)).trans ?_
  exact checkType_version flags st

theorem load_blob_version (blob : KeyBlob) (source : List UInt8) :
    (blob.load junk source).blob.version = blob.version := by
  have herase : blob.erase.version = blob.version := by
    unfold KeyBlob.erase
    split <;> rfl
  unfold KeyBlob.load
  dsimp only
  split
  · rw [Loading.finish_version, Loading.loadBody_version]
    exact herase
  · rw [Loading.finish_version]
    exact herase

def AllVersion1 (keys : KeyMap) : Prop :=
  ∀ key record, keys.lookup key = some record → record.keyBlob.version = 1

theorem AllVersion1.insert {keys : KeyMap} (h : AllVersion1 keys) (key : Key)
    (hrecord : record.keyBlob.version = 1) : AllVersion1 (keys.insert key record) := by
  intro other found hfound
  by_cases hother : other = key
  · subst hother
    rw [AList.lookup_insert, Option.some_inj] at hfound
    exact hfound ▸ hrecord
  · rw [AList.lookup_insert_ne hother] at hfound
    exact h other found hfound

theorem pullRecord_version1 (h : AllVersion1 persistentKeys) (version rev : Nat) (key : Key)
    (source : List UInt8) :
    AllVersion1 (pullRecord junk version rev key persistentKeys source).2.1 := by
  have hold : ((persistentKeys.lookup key).getD (defaultRecord junk)).keyBlob.version = 1 := by
    cases hfound : persistentKeys.lookup key with
    | none => rfl
    | some record => exact h key record hfound
  have hloaded := (load_blob_version junk
    ((persistentKeys.lookup key).getD (defaultRecord junk)).keyBlob source).trans hold
  unfold pullRecord
  dsimp only
  split
  · split
    · exact h.insert key hloaded
    · exact h.insert key hloaded
  · exact h.insert key hloaded

theorem pullRecords_version1 (h : AllVersion1 persistentKeys) (version fuel : Nat)
    (guidBuf : Vector UInt8 16) (source : List UInt8) :
    AllVersion1 (pullRecords junk version fuel guidBuf source persistentKeys).2 := by
  induction fuel generalizing persistentKeys guidBuf source with
  | zero => exact h
  | succ fuel ih =>
    unfold pullRecords
    dsimp only
    split
    · exact h
    · split
      · exact h
      · split
        · exact h
        · split
          · exact pullRecord_version1 junk h _ _ _ _
          · exact ih (pullRecord_version1 junk h _ _ _ _) _ _

theorem allVersion1_empty : AllVersion1 ∅ := by
  intro key record hrecord
  cases hrecord

theorem pullBody_version1 (ccm : Ccm) (password : List UInt8) (version : Nat) {st : Pulling}
    (h : AllVersion1 st.persistentKeys) (source : List UInt8) :
    AllVersion1 (pullBody ccm password junk version st source).persistentKeys := by
  have hkeys : ∀ len source,
      AllVersion1 (pullKeys ccm password junk version len st source).2 := by
    intro len source
    unfold pullKeys
    dsimp only
    split
    · exact h
    · split
      · exact h
      · split
        · exact h
        · exact pullRecords_version1 junk h _ _ _ _
  unfold pullBody
  dsimp only
  split
  · exact allVersion1_empty
  · split
    · exact allVersion1_empty
    · split
      · dsimp only
        split
        · exact allVersion1_empty
        · exact hkeys _ _
      · exact h

end Versions

/-! ### The whole storage -/

section Storage

variable (ccm : Ccm) (password : List UInt8) (junk : UInt8)

theorem pullHeader_append (thisGuid guid : Vector UInt8 16) (hrevision : revision < 2 ^ 32)
    (body : List UInt8) :
    pullHeader junk thisGuid
        (leBytes 2 keyStoreVersion ++ (leBytes 4 revision ++ (guid.toList ++ body))) =
      (.ok, keyStoreVersion, revision, guid, body) := by
  have hversion : pulledWord junk 2 (leBytes 2 keyStoreVersion) = keyStoreVersion :=
    pulledWord_leBytes junk 2 (by decide)
  unfold pullHeader
  simp only [pullBytes_word, Nat.zero_lt_succ, pulledWord_leBytes 0 4 hrevision,
    pullBytes_vector, pulledBuffer_toList]
  rfl

theorem pullBody_keysData {plain : List UInt8} {guid : Vector UInt8 16}
    (hcipher : ccm.encrypt (ccm.derive password guid) (leBytes 4 revision) plain = .ok cipher)
    (hlimit : cipher.length ≤ 64000) :
    pullBody ccm password junk keyStoreVersion ⟨.ok, guid, revision, ∅⟩
        (leBytes 8 cipher.length ++ cipher) =
      let (status, persistentKeys) :=
        pullRecords junk keyStoreVersion (plain.length + 1) guid plain ∅
      let status := if status = .eof then .ok else status
      ⟨status, guid, revision, if status ≠ .ok then ∅ else persistentKeys⟩ := by
  have hlength := ccm.encrypt_length hcipher
  have hword : pulledWord 0 8 (leBytes 8 cipher.length) = cipher.length :=
    pulledWord_leBytes 0 8 (by omega)
  have hdata : pullBytes cipher cipher.length = (.ok, cipher, []) := by
    have happend : pullBytes (cipher ++ []) cipher.length = (.ok, cipher, []) :=
      pullBytes_append rfl (Or.inl (by omega))
    rwa [List.append_nil] at happend
  unfold pullBody
  simp only [pullBytes_word, Nat.zero_lt_succ, hword]
  rw [if_neg (by simp), if_neg (by omega), if_pos (by omega)]
  unfold pullKeys
  simp [hdata, ccm.decrypt_encrypt hcipher]

theorem pullBody_too_long (st : Pulling) (hlimit : 64000 < cipher.length)
    (hword : cipher.length < 2 ^ 64) :
    (pullBody ccm password junk keyStoreVersion st (leBytes 8 cipher.length ++ cipher)).status =
      .busCorruptKeystore := by
  unfold pullBody
  simp only [pullBytes_word, Nat.zero_lt_succ, pulledWord_leBytes 0 8 hword]
  rw [if_neg (by simp), if_pos hlimit]

theorem push_cases (hpush : push ccm password thisGuid store = .ok bytes) :
    ∃ body, bytes = leBytes 2 keyStoreVersion ++ (leBytes 4 (nextRevision store.revision) ++
        (thisGuid.toList ++ body)) ∧
      ((keysBytes store.keys.entries = [] ∧ body = leBytes 8 0) ∨
        ∃ cipher, ccm.encrypt (ccm.derive password thisGuid)
            (leBytes 4 (nextRevision store.revision)) (keysBytes store.keys.entries) =
            .ok cipher ∧ body = leBytes 8 cipher.length ++ cipher) := by
  unfold push at hpush
  dsimp only at hpush
  split_ifs at hpush with hkeys
  · cases hcipher : ccm.encrypt (ccm.derive password thisGuid)
      (leBytes 4 (nextRevision store.revision)) (keysBytes store.keys.entries) with
    | error status =>
      rw [hcipher] at hpush
      cases hpush
    | ok cipher =>
      rw [hcipher] at hpush
      cases hpush
      refine ⟨leBytes 8 cipher.length ++ cipher, ?_, Or.inr ⟨cipher, rfl, rfl⟩⟩
      simp
  · cases hpush
    refine ⟨leBytes 8 0, ?_, Or.inl ⟨?_, rfl⟩⟩
    · simp
    · exact List.eq_nil_of_length_eq_zero (by omega)

theorem nextRevision_lt (revision : Nat) : nextRevision revision < 2 ^ 32 :=
  Nat.mod_lt _ (by decide)

variable (freshGuid : Vector UInt8 16)

theorem pull_pushed (thisGuid : Vector UInt8 16) (store : KeyStore)
    (body : List UInt8) :
    pull ccm password junk freshGuid (leBytes 2 keyStoreVersion ++
        (leBytes 4 (nextRevision store.revision) ++ (thisGuid.toList ++ body))) =
      pullBody ccm password junk keyStoreVersion
        ⟨.ok, thisGuid, nextRevision store.revision, ∅⟩ body := by
  unfold pull
  rw [pullHeader_append junk freshGuid thisGuid (nextRevision_lt store.revision)]
  rfl

/-- A fresh key store that pulls what was pushed has the GUID, the revision and
the keys of the one that pushed it. -/
def PullsBack (freshGuid thisGuid : Vector UInt8 16) (store : KeyStore) (bytes : List UInt8) :
    Prop :=
  let result := pull ccm password junk freshGuid bytes
  result.status = .ok ∧ result.thisGuid = thisGuid ∧
    result.persistentRevision = nextRevision store.revision ∧
    ∀ key, Option.Rel SameRecord (result.persistentKeys.lookup key) (store.keys.lookup key)

theorem pull_version1 (source : List UInt8) :
    AllVersion1 (pull ccm password junk freshGuid source).persistentKeys := by
  unfold pull
  dsimp only
  split
  · exact allVersion1_empty
  · split
    · exact allVersion1_empty
    · exact pullBody_version1 junk ccm password _ allVersion1_empty _

theorem keysBytes_eq_nil (h : keysBytes entries = []) : entries = [] := by
  cases entries with
  | nil => rfl
  | cons entry rest =>
    have hpositive := recordBytes_length_pos entry.1 entry.2
    have hlength : (keysBytes (entry :: rest)).length = 0 := by rw [h, List.length_nil]
    rw [keysBytes, List.flatMap_cons, List.length_append] at hlength
    omega

theorem pull_too_long (hmemory : (keysBytes store.keys.entries).length + 16 < 2 ^ 64)
    (hpush : push ccm password thisGuid store = .ok bytes)
    (hlong : 63984 < (keysBytes store.keys.entries).length) :
    (pull ccm password junk freshGuid bytes).status = .busCorruptKeystore := by
  obtain ⟨body, rfl, ⟨hnone, -⟩ | ⟨cipher, hcipher, rfl⟩⟩ := push_cases ccm password hpush
  · rw [hnone, List.length_nil] at hlong
    omega
  · have hlength := ccm.encrypt_length hcipher
    rw [pull_pushed]
    exact pullBody_too_long ccm password junk _ (by omega) (by omega)

theorem pull_persistentKeys
    (hstorable : ∀ key record, store.keys.lookup key = some record → Storable key record)
    (hpush : push ccm password thisGuid store = .ok bytes)
    (hversion : ∀ key record, store.keys.lookup key = some record → record.keyBlob.version = 1)
    (hlimit : (keysBytes store.keys.entries).length ≤ 63984) :
    pull ccm password junk freshGuid bytes =
      ⟨.ok, thisGuid, nextRevision store.revision, store.keys.entries.foldl
        (fun map entry => map.insert entry.1 (reloadedRecord entry.2)) ∅⟩ := by
  obtain ⟨body, rfl, ⟨hnone, rfl⟩ | ⟨cipher, hcipher, rfl⟩⟩ := push_cases ccm password hpush
  · rw [pull_pushed, keysBytes_eq_nil hnone]
    rfl
  · have hlength := ccm.encrypt_length hcipher
    have hentry : ∀ entry ∈ store.keys.entries, store.keys.lookup entry.1 = some entry.2 :=
      fun entry hentry => AList.mem_lookup_iff.mpr hentry
    have hrecords := pullRecords_keysBytes junk store.keys.nodupKeys
      (fun entry hmem => hstorable _ _ (hentry entry hmem))
      (fun entry hmem => hversion _ _ (hentry entry hmem))
      ∅ (fun entry _ => AList.lookup_empty _) (Nat.lt_succ_self _) thisGuid
    rw [pull_pushed, pullBody_keysData ccm password junk hcipher (by omega), hrecords]
    rfl

theorem reloaded_lookup (store : KeyStore) (key : Key) :
    (store.keys.entries.foldl (fun map entry => map.insert entry.1 (reloadedRecord entry.2))
      (∅ : KeyMap)).lookup key = (store.keys.lookup key).map reloadedRecord := by
  rw [Assoc.lookup_foldl_insert _ store.keys.nodupKeys]
  change (store.keys.lookup key).elim none _ = _
  cases store.keys.lookup key with
  | none => rfl
  | some record => rfl

/-- A key store whose `Push` succeeds is pulled back exactly if its blobs have
version 1 and its keys take at most 63984 bytes. -/
theorem pullsBack_iff (freshGuid thisGuid : Vector UInt8 16) (store : KeyStore)
    (hstorable : ∀ key record, store.keys.lookup key = some record → Storable key record)
    (hmemory : (keysBytes store.keys.entries).length + 16 < 2 ^ 64) (bytes : List UInt8)
    (hpush : push ccm password thisGuid store = .ok bytes) :
    PullsBack ccm password junk freshGuid thisGuid store bytes ↔
      (∀ key record, store.keys.lookup key = some record → record.keyBlob.version = 1) ∧
        (keysBytes store.keys.entries).length ≤ 63984 := by
  constructor
  · rintro ⟨hstatus, -, -, hkeys⟩
    constructor
    · intro key record hrecord
      have hrel := hkeys key
      rw [hrecord] at hrel
      cases hloaded : (pull ccm password junk freshGuid bytes).persistentKeys.lookup key with
      | none =>
        rw [hloaded] at hrel
        cases hrel
      | some loaded =>
        rw [hloaded] at hrel
        cases hrel with
        | some hsame =>
          rw [← hsame.keyBlob.version]
          exact pull_version1 ccm password junk freshGuid bytes key loaded hloaded
    · by_contra hlong
      have hcorrupt := pull_too_long ccm password junk freshGuid hmemory hpush
        (by omega)
      rw [hstatus] at hcorrupt
      cases hcorrupt
  · rintro ⟨hversion, hlimit⟩
    have hpull := pull_persistentKeys ccm password junk freshGuid hstorable hpush
      hversion hlimit
    unfold PullsBack
    rw [hpull]
    refine ⟨rfl, rfl, rfl, fun key => ?_⟩
    rw [reloaded_lookup]
    cases hrecord : store.keys.lookup key with
    | none => exact Option.Rel.none
    | some record => exact Option.Rel.some (sameRecord_reloaded (hversion key record hrecord))

end Storage

/-- A cipher that leaves the text as it is, for examples. -/
def plainCcm : Ccm where
  AesKey := Unit
  derive _ _ := ()
  deriveAlternate _ := ()
  encrypt _ _ plain := .ok (plain ++ List.replicate 16 0)
  decrypt _ _ cipher := .ok (cipher.take (cipher.length - 16))
  encrypt_length h := by
    cases h
    simp
  decrypt_encrypt h := by
    cases h
    simp

/-- A key store with one generic key of `size` bytes. -/
def oneKeyStore (size : Nat) : KeyStore :=
  { KeyStore.new false with
    storeState := .modified
    keys := AList.singleton ⟨.local, Vector.replicate 16 1⟩
      ⟨⟨1, { KeyBlob.new 1 with blobType := .generic, data := List.replicate size 7 },
        Vector.replicate 4 3⟩, false⟩ }

theorem oneKeyStore_storable (hsize : size < 65536) (key : Key) (record : KeyRecord)
    (h : (oneKeyStore size).keys.lookup key = some record) :
    Storable key record ∧ record.keyBlob.version = 1 := by
  obtain ⟨rfl, hrecord⟩ := Sigma.mk.inj (List.mem_singleton.mp (AList.mem_lookup_iff.mp h))
  cases eq_of_heq hrecord
  refine ⟨⟨by decide, Nat.one_lt_two_pow (by decide), ?_⟩, rfl⟩
  exact
    { version := Nat.le_refl 1
      type := show 1 < 9 by decide
      nonempty := fun hempty => by cases hempty
      tag := Nat.zero_le 255
      data := by simpa using hsize }

theorem oneKeyStore_length (hsize : size < 65536) :
    (keysBytes (oneKeyStore size).keys.entries).length = size + 34 := by
  have hmod : size % 65536 = size := Nat.mod_eq_of_lt hsize
  simp [keysBytes, oneKeyStore, recordBytes, KeyBlob.store, KeyBlob.flags,
    KeyBlob.new, KeyBlob.isMember, expiresFlag, versionFlag, BlobType.toNat]
  omega

theorem smallStore_pullsBack :
    ∃ bytes, push plainCcm [] (Vector.replicate 16 9) (oneKeyStore 16) = .ok bytes ∧
      PullsBack plainCcm [] 0 (Vector.replicate 16 0) (Vector.replicate 16 9) (oneKeyStore 16)
        bytes := by
  refine ⟨_, rfl, ?_⟩
  refine (pullsBack_iff plainCcm [] 0 _ _ (oneKeyStore 16)
    (fun key record h => (oneKeyStore_storable (by decide) key record h).1) ?_ _ rfl).mpr
    ⟨fun key record h => (oneKeyStore_storable (by decide) key record h).2, ?_⟩
  · rw [oneKeyStore_length (by decide)]
    decide
  · rw [oneKeyStore_length (by decide)]
    decide

/-- A single key of 64000 bytes is written and cannot be read. -/
theorem largeStore_corrupt :
    (∀ key record, (oneKeyStore 64000).keys.lookup key = some record → Storable key record) ∧
      ∃ bytes, push plainCcm [] (Vector.replicate 16 9) (oneKeyStore 64000) = .ok bytes ∧
        (pull plainCcm [] 0 (Vector.replicate 16 0) bytes).status = .busCorruptKeystore := by
  refine ⟨fun key record h => (oneKeyStore_storable (by decide) key record h).1, ?_⟩
  cases hpush : push plainCcm [] (Vector.replicate 16 9) (oneKeyStore 64000) with
  | error status =>
    unfold push at hpush
    dsimp only at hpush
    split_ifs at hpush
    · cases hpush
    · cases hpush
  | ok bytes =>
    refine ⟨bytes, rfl, pull_too_long plainCcm [] 0 _ ?_ hpush ?_⟩
    · rw [oneKeyStore_length (by decide)]
      decide
    · rw [oneKeyStore_length (by decide)]
      decide

end AllJoyn.Keys
