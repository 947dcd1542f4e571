import AllJoyn.Crypto.KeyBlob
import AllJoyn.Lib.Assoc

/-!
The key store (`KeyStore.cc`): a cache of keys over a persistent storage that
other processes may write as well. A load merges the two, and the decision for a
key rests on the revision in which it was added, on whether it has been read
from the storage, and on the keys deleted since the last load.
-/

namespace AllJoyn.Keys

open Crypto Lib

variable {storage : Storage}

/-- `Key::KeyType`. A type that is read can be any number. -/
inductive KeyType where
  | remote
  | «local»
  | unknown (excess : Nat)
  deriving DecidableEq, Repr

structure Key where
  type : KeyType
  guid : Vector UInt8 16
  deriving DecidableEq, Repr

/-- A key as it is written to the storage. -/
structure StoredRecord where
  revision : Nat
  keyBlob : KeyBlob
  accessRights : Vector UInt8 4
  deriving DecidableEq, Repr

structure KeyRecord extends StoredRecord where
  persisted : Bool
  deriving DecidableEq, Repr

abbrev KeyMap := AList fun _ : Key => KeyRecord

inductive StoreState where
  | unavailable
  | loaded
  | modified
  deriving DecidableEq, Repr

/-- What the storage holds. An empty one has revision 0 and no keys. -/
structure Storage where
  revision : Nat
  keys : AList fun _ : Key => StoredRecord

structure KeyStore where
  storeState : StoreState
  keys : KeyMap
  revision : Nat
  shared : Bool
  deletions : List Key

/-- The constructor, and `shared` as `Init` sets it. -/
def KeyStore.new (shared : Bool) : KeyStore where
  storeState := .unavailable
  keys := ∅
  revision := 0
  shared := shared
  deletions := []

/-- Revisions are counted in 32 bits. -/
def nextRevision (revision : Nat) : Nat := (revision + 1) % 2 ^ 32

/-- `Timespec::operator<=` -/
def Timespec.notAfter (time now : Timespec) : Bool :=
  time.seconds.toNat < now.seconds.toNat ||
    (time.seconds = now.seconds && time.mseconds.toNat ≤ now.mseconds.toNat)

def hasExpired (now : Timespec) (keyBlob : KeyBlob) : Bool :=
  keyBlob.expiration.seconds ≠ 0 && Timespec.notAfter keyBlob.expiration now

def eraseExpiredKeys (now : Timespec) (keys : KeyMap) : KeyMap :=
  Assoc.filter (fun entry => !hasExpired now entry.2.keyBlob) keys

/-- The count that `EraseExpiredKeys` returns. -/
def countExpiredKeys (now : Timespec) (keys : KeyMap) : Nat :=
  (keys.entries.filter fun entry => hasExpired now entry.2.keyBlob).length

/-- The persistent keys as a load request delivers them. -/
def pulled (storage : Storage) : KeyMap :=
  Assoc.mapValues (fun record => { record with persisted := true }) storage.keys

/-- A key deleted here is deleted from the storage, unless it was added there in
a revision that this key store has not seen. -/
def eraseDeletion (revision : Nat) : KeyMap × Bool → Key → KeyMap × Bool
  | (persistentKeys, dirty), key =>
    match persistentKeys.lookup key with
    | some record =>
      if record.revision ≤ revision then (persistentKeys.erase key, true)
      else (persistentKeys, dirty)
    | none => (persistentKeys, dirty)

/-- Whether a merge takes the record of the cache. A record that has been read
from the storage and is missing there counts as deleted by another process, if
it is older than the storage. -/
def addIt (persistentRevision : Nat) (cached : KeyRecord) (persistent : Option KeyRecord) : Bool :=
  match persistent with
  | none => !cached.persisted || cached.revision ≥ persistentRevision
  | some record => record.revision < cached.revision

/-- The persistent keys without those deleted here. -/
def KeyStore.remaining (store : KeyStore) (storage : Storage) : KeyMap × Bool :=
  store.deletions.foldl (eraseDeletion store.revision) (pulled storage, false)

/-- The keys after a merge, before those that have expired are erased, and
whether they differ from the storage. -/
def KeyStore.merge (store : KeyStore) (storage : Storage) : KeyMap × Bool :=
  Assoc.takeOver (addIt storage.revision) store.keys.entries (store.remaining storage)

/-- `Load`, with the storage as it is when the load request is made. -/
def KeyStore.load (now : Timespec) (storage : Storage) (store : KeyStore) : KeyStore :=
  if storage.revision > store.revision || store.deletions ≠ [] then
    let (keys, dirty) := store.merge storage
    { store with
      keys := eraseExpiredKeys now keys
      revision := storage.revision
      deletions := []
      storeState :=
        if countExpiredKeys now keys ≠ 0 then .modified else if dirty then .modified else .loaded }
  else { store with storeState := .loaded }

def KeyStore.reload (now : Timespec) (storage : Storage) (store : KeyStore) : KeyStore :=
  if store.shared then store.load now storage else store

/-- `Push`, and the storage that it leaves. -/
def KeyStore.push (store : KeyStore) : KeyStore × Storage :=
  let revision := nextRevision store.revision
  ({ store with revision := revision, storeState := .loaded },
    { revision := revision, keys := Assoc.mapValues KeyRecord.toStoredRecord store.keys })

def KeyStore.store (now : Timespec) (storage : Storage) (store : KeyStore) :
    QStatus × KeyStore × Storage :=
  match store.storeState with
  | .unavailable => (.busKeystoreNotLoaded, store, storage)
  | .loaded => (.ok, store, storage)
  | .modified =>
    let store := { store with keys := eraseExpiredKeys now store.keys }
    (.ok, (store.reload now storage).push)

def KeyStore.addKey (store : KeyStore) (key : Key) (keyBlob : KeyBlob)
    (accessRights : Vector UInt8 4) : QStatus × KeyStore :=
  if store.storeState = .unavailable then (.busKeystoreNotLoaded, store)
  else
    -- a record that is there keeps its flag
    let persisted := ((store.keys.lookup key).map (·.persisted)).getD false
    let record := ⟨⟨nextRevision store.revision, keyBlob, accessRights⟩, persisted⟩
    (.ok, { store with
      keys := store.keys.insert key record
      storeState := .modified
      deletions := store.deletions.filter (· ≠ key) })

def KeyStore.deleteKey (store : KeyStore) (key : Key) : QStatus × KeyStore :=
  if store.storeState = .unavailable then (.busKeystoreNotLoaded, store)
  else
    (.ok, { store with
      keys := store.keys.erase key
      storeState := .modified
      deletions := if key ∈ store.deletions then store.deletions else key :: store.deletions })

def KeyStore.delKey (now : Timespec) (storage : Storage) (store : KeyStore) (key : Key) :
    QStatus × KeyStore × Storage :=
  match store.deleteKey key with
  | (.ok, store) => (.ok, (store.store now storage).2)
  | (status, store) => (status, store, storage)

/-! ### What a load does to one key -/

theorem pulled_lookup (storage : Storage) (key : Key) :
    (pulled storage).lookup key =
      (storage.keys.lookup key).map fun record => { record with persisted := true } :=
  Assoc.lookup_mapValues _ key _

theorem eraseExpiredKeys_lookup (now : Timespec) (keys : KeyMap) (key : Key) :
    (eraseExpiredKeys now keys).lookup key =
      (keys.lookup key).filter fun record => !hasExpired now record.keyBlob :=
  Assoc.lookup_filter _ key keys

theorem eraseDeletion_lookup (revision : Nat) (start : KeyMap × Bool) (deleted key : Key) :
    (eraseDeletion revision start deleted).1.lookup key = start.1.lookup key ∨
      (key = deleted ∧ (eraseDeletion revision start deleted).1.lookup key = none) := by
  obtain ⟨persistentKeys, dirty⟩ := start
  unfold eraseDeletion
  cases hfound : persistentKeys.lookup deleted with
  | none =>
    simp only [hfound]
    exact Or.inl trivial
  | some record =>
    simp only [hfound]
    split_ifs
    · by_cases hkey : key = deleted
      · subst hkey
        exact Or.inr ⟨rfl, AList.lookup_erase _ _⟩
      · exact Or.inl (AList.lookup_erase_ne hkey)
    · exact Or.inl rfl

theorem eraseDeletions_lookup (revision : Nat) (deletions : List Key) (start : KeyMap × Bool)
    (key : Key) :
    (deletions.foldl (eraseDeletion revision) start).1.lookup key = start.1.lookup key ∨
      (key ∈ deletions ∧
        (deletions.foldl (eraseDeletion revision) start).1.lookup key = none) := by
  induction deletions generalizing start with
  | nil => exact Or.inl rfl
  | cons first rest ih =>
    rw [List.foldl_cons]
    rcases ih (eraseDeletion revision start first) with hsame | ⟨hmem, hnone⟩
    · rw [hsame]
      rcases eraseDeletion_lookup revision start first key with hfirst | ⟨hkey, hnone⟩
      · exact Or.inl hfirst
      · exact Or.inr ⟨hkey ▸ List.mem_cons_self, hnone⟩
    · exact Or.inr ⟨List.mem_cons_of_mem _ hmem, hnone⟩

variable {store : KeyStore} {key : Key}

theorem remaining_lookup_of_kept (storage : Storage) (hkey : key ∉ store.deletions) :
    (store.remaining storage).1.lookup key = (pulled storage).lookup key :=
  (eraseDeletions_lookup store.revision store.deletions (pulled storage, false) key).resolve_right
    fun h => hkey h.1

theorem remaining_lookup_of_missing (store : KeyStore) (hmissing : storage.keys.lookup key = none) :
    (store.remaining storage).1.lookup key = none := by
  have hpulled : (pulled storage).lookup key = none := by
    rw [pulled_lookup, hmissing]
    rfl
  rcases eraseDeletions_lookup store.revision store.deletions (pulled storage, false) key with
    hsame | ⟨-, hnone⟩
  · exact hsame.trans hpulled
  · exact hnone

theorem merge_lookup (store : KeyStore) (storage : Storage) (key : Key) :
    (store.merge storage).1.lookup key =
      (store.keys.lookup key).elim ((store.remaining storage).1.lookup key) fun cached =>
        if addIt storage.revision cached ((store.remaining storage).1.lookup key) then some cached
        else (store.remaining storage).1.lookup key :=
  Assoc.lookup_takeOver (addIt storage.revision) store.keys.nodupKeys (store.remaining storage) key

theorem merge_isSome (hkey : key ∉ store.deletions) (hstored : (storage.keys.lookup key).isSome) :
    ((store.merge storage).1.lookup key).isSome := by
  rw [merge_lookup, remaining_lookup_of_kept storage hkey, pulled_lookup]
  obtain ⟨record, hrecord⟩ := Option.isSome_iff_exists.mp hstored
  rw [hrecord]
  cases store.keys.lookup key with
  | none => rfl
  | some cached =>
    rw [Option.elim_some]
    split_ifs
    · rfl
    · rfl

/-- A key that is missing in the storage survives a merge only if it is taken
from the cache. -/
theorem merge_lookup_of_missing (hmissing : storage.keys.lookup key = none) :
    (store.merge storage).1.lookup key =
      (store.keys.lookup key).filter fun cached => addIt storage.revision cached none := by
  rw [merge_lookup, remaining_lookup_of_missing store hmissing]
  cases store.keys.lookup key with
  | none => rfl
  | some cached => simp [Option.filter]

/-- A record that a merge takes from the cache makes it differ from the storage. -/
theorem merge_dirty {cached : KeyRecord} (hmissing : storage.keys.lookup key = none)
    (hcached : store.keys.lookup key = some cached)
    (hadd : addIt storage.revision cached none = true) : (store.merge storage).2 = true := by
  refine Assoc.takeOver_dirty _ store.keys.nodupKeys hcached ?_
  rw [remaining_lookup_of_missing store hmissing]
  exact hadd

end AllJoyn.Keys
