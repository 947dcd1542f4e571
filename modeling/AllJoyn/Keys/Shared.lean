import AllJoyn.Keys.KeyStore
import AllJoyn.Lib.Run

/-!
Two key stores over one storage. A key that is deleted from the storage stays
deleted, and a key that is added reaches it, as long as the operations are
careful: the flag that tells a new key from a deleted one is set by a load and
not by a store, and a load forgets that the cache has changes.
-/

namespace AllJoyn.Keys

open Crypto Lib Lib.Run KeyStore Option AList

variable {side writer : Bool} {store : KeyStore} {now : Timespec} {key : Key} {storage : Storage}

/-! ### The system -/

structure Shared where
  stores : Bool → KeyStore
  storage : Storage

inductive Operation where
  | addKey (key : Key) (keyBlob : KeyBlob) (accessRights : Vector UInt8 4)
  | delKey (key : Key)
  | load
  | store
  deriving DecidableEq, Repr

def Operation.adds (key : Key) : Operation → Bool
  | .addKey other _ _ => other = key
  | _ => false

/-- An operation of one of the key stores, with the time it is made at. -/
structure Event where
  side : Bool
  operation : Operation
  now : Timespec
  deriving DecidableEq, Repr

variable {system : Shared} {event : Event} {events : List Event}

/-- Both key stores are shared ones that have not been loaded. -/
def Shared.start (storage : Storage) : Shared := ⟨fun _ => KeyStore.new true, storage⟩

def Shared.put (system : Shared) (side : Bool) (result : KeyStore × Storage) : Shared :=
  ⟨Function.update system.stores side result.1, result.2⟩

def step (system : Shared) (event : Event) : Shared :=
  let store := system.stores event.side
  match event.operation with
  | .addKey key keyBlob accessRights =>
    system.put event.side ((store.addKey key keyBlob accessRights).2, system.storage)
  | .delKey key => system.put event.side (store.delKey event.now system.storage key).2
  | .load => system.put event.side (store.load event.now system.storage, system.storage)
  | .store => system.put event.side (store.store event.now system.storage).2

def Shared.stored (system : Shared) (key : Key) : Bool := (system.storage.keys.lookup key).isSome

/-- The revision of the storage does not wrap, and
* a key that is added is no key that was read from the storage and is missing
  there, and no key that the other key store has dropped;
* a key that is deleted is held by the other key store only as it was read from
  the storage;
* a load that does not merge is not made while there are changes. -/
def Careful (system : Shared) (event : Event) : Prop :=
  let store := system.stores event.side
  let other := system.stores (!event.side)
  system.storage.revision + 1 < 2 ^ 32 ∧
    match event.operation with
    | .addKey key _ _ =>
      ((store.keys.lookup key).any (·.persisted) → system.stored key) ∧
        (other.revision = system.storage.revision → system.stored key →
          (other.keys.lookup key).isSome)
    | .delKey key =>
      (other.keys.lookup key).all fun record =>
        record.persisted && record.revision ≤ system.storage.revision
    | .load => store.storeState = .modified → store.revision < system.storage.revision
    | .store => True

instance (system : Shared) (event : Event) : Decidable (Careful system event) := by
  unfold Careful
  cases event.operation <;> exact inferInstance

@[simp]
theorem put_stores_self (system : Shared) (side : Bool) (result : KeyStore × Storage) :
    (system.put side result).stores side = result.1 :=
  Function.update_self _ _ _

theorem put_stores_other (system : Shared) {other : Bool} (h : other ≠ side)
    (result : KeyStore × Storage) : (system.put side result).stores other = system.stores other :=
  Function.update_of_ne h _ _

/-- What holds of the new key store and of the others as they were. -/
theorem put_forall (p : KeyStore → Prop) {result : KeyStore × Storage} (hself : p result.1)
    (hothers : ∀ other, other ≠ side → p (system.stores other)) (other : Bool) :
    p ((system.put side result).stores other) :=
  (Function.forall_update_iff system.stores fun _ => p).2 ⟨hself, hothers⟩ other

@[simp]
theorem put_storage (system : Shared) (side : Bool) (result : KeyStore × Storage) :
    (system.put side result).storage = result.2 :=
  rfl

/-! ### Loads and stores of one key store -/

/-- `Load` reads the storage into the cache. -/
def KeyStore.Merges (store : KeyStore) (storage : Storage) : Prop :=
  store.revision < storage.revision ∨ store.deletions ≠ []

theorem load_of_merge (now : Timespec) (h : store.Merges storage) :
    store.load now storage =
      { store with
        keys := eraseExpiredKeys now (store.merge storage).1
        revision := storage.revision
        deletions := []
        storeState :=
          if countExpiredKeys now (store.merge storage).1 ≠ 0 then .modified
          else if (store.merge storage).2 then .modified else .loaded } := by
  unfold load
  rw [if_pos (by simpa [KeyStore.Merges] using h)]

theorem load_of_no_merge (now : Timespec) (h : ¬store.Merges storage) :
    store.load now storage = { store with storeState := .loaded } := by
  unfold load
  rw [if_neg (by simpa [KeyStore.Merges] using h)]

theorem load_revision (now : Timespec) (h : store.revision ≤ storage.revision) :
    (store.load now storage).revision = storage.revision := by
  by_cases hmerge : store.Merges storage
  · rw [load_of_merge now hmerge]
  · rw [load_of_no_merge now hmerge]
    exact Nat.le_antisymm h (Nat.le_of_not_lt fun hlt => hmerge (Or.inl hlt))

theorem load_deletions (store : KeyStore) (storage : Storage) (now : Timespec) :
    (store.load now storage).deletions = [] := by
  by_cases hmerge : store.Merges storage
  · rw [load_of_merge now hmerge]
  · rw [load_of_no_merge now hmerge]
    exact not_not.mp fun hne => hmerge (Or.inr hne)

theorem load_shared (store : KeyStore) (storage : Storage) (now : Timespec) :
    (store.load now storage).shared = store.shared := by
  unfold load
  split_ifs <;> rfl

def Unexpired (now : Timespec) (key : Key) (keys : KeyMap) : Prop :=
  ∀ record, keys.lookup key = some record → hasExpired now record.keyBlob = false

variable {keys : KeyMap}

theorem eraseExpiredKeys_lookup_of_unexpired (h : Unexpired now key keys) :
    (eraseExpiredKeys now keys).lookup key = keys.lookup key := by
  rw [eraseExpiredKeys_lookup]
  cases hfound : keys.lookup key with
  | none => rfl
  | some record => simp [h record hfound]

section Merging

variable (hcache : Unexpired now key store.keys)
  (hstorage : ∀ record, storage.keys.lookup key = some record → hasExpired now record.keyBlob = false)

include hcache hstorage

theorem merge_unexpired : Unexpired now key (store.merge storage).1 := by
  have hremaining : Unexpired now key (store.remaining storage).1 := by
    intro record hrecord
    rcases eraseDeletions_lookup store.revision store.deletions (pulled storage, false) key with
      hsame | ⟨-, hnone⟩
    · rw [show (store.remaining storage).1.lookup key = (pulled storage).lookup key from hsame,
        pulled_lookup, map_eq_some_iff] at hrecord
      obtain ⟨found, hfound, rfl⟩ := hrecord
      exact hstorage found hfound
    · rw [show (store.remaining storage).1.lookup key = none from hnone] at hrecord
      cases hrecord
  intro record hrecord
  rw [merge_lookup] at hrecord
  cases hcached : store.keys.lookup key with
  | none =>
    rw [hcached] at hrecord
    exact hremaining record hrecord
  | some cached =>
    rw [hcached, elim_some] at hrecord
    split_ifs at hrecord
    · cases hrecord
      exact hcache record hcached
    · exact hremaining record hrecord

/-- A key of the storage is in the cache after a load, if it was there before or
the load merges. -/
theorem load_isSome (hkept : key ∉ store.deletions) (hrevision : store.revision ≤ storage.revision)
    (hcurrent : store.revision = storage.revision → (store.keys.lookup key).isSome)
    (hstored : (storage.keys.lookup key).isSome) :
    ((store.load now storage).keys.lookup key).isSome := by
  by_cases hmerge : store.Merges storage
  · rw [load_of_merge now hmerge]
    rw [eraseExpiredKeys_lookup_of_unexpired (merge_unexpired hcache hstorage)]
    exact merge_isSome hkept hstored
  · rw [load_of_no_merge now hmerge]
    exact hcurrent (Nat.le_antisymm hrevision (Nat.le_of_not_lt fun hlt => hmerge (Or.inl hlt)))

end Merging

section New

variable {cached : KeyRecord} (hcached : store.keys.lookup key = some cached)
  (hnew : cached.persisted = false) (hmissing : storage.keys.lookup key = none)

include hcached hnew hmissing

theorem load_lookup_of_new (hunexpired : hasExpired now cached.keyBlob = false) :
    (store.load now storage).keys.lookup key = some cached := by
  by_cases hmerge : store.Merges storage
  · rw [load_of_merge now hmerge]
    rw [eraseExpiredKeys_lookup, merge_lookup_of_missing hmissing, hcached]
    simp [addIt, hnew, hunexpired]
  · rw [load_of_no_merge now hmerge]
    exact hcached

theorem load_modified_of_new (hmerge : store.revision < storage.revision) :
    (store.load now storage).storeState = .modified := by
  have hdirty : (store.merge storage).2 = true :=
    merge_dirty hmissing hcached (by simp [addIt, hnew])
  rw [load_of_merge now (Or.inl hmerge)]
  simp [hdirty]

end New

/-- A key store that holds the key has read it, before a revision. -/
def Stale (key : Key) (revision : Nat) (store : KeyStore) : Prop :=
  ∀ cached, store.keys.lookup key = some cached →
    cached.persisted = true ∧ cached.revision < revision ∧ store.revision < revision

/-- A key that the storage has lost is lost to a cache that has it from there. -/
theorem load_lookup_of_stale (now : Timespec) (hmissing : storage.keys.lookup key = none)
    (hstale : Stale key storage.revision store) : (store.load now storage).keys.lookup key = none := by
  cases hcached : store.keys.lookup key with
  | none =>
    by_cases hmerge : store.Merges storage
    · rw [load_of_merge now hmerge]
      rw [eraseExpiredKeys_lookup, merge_lookup_of_missing hmissing, hcached]
      rfl
    · rw [load_of_no_merge now hmerge]
      exact hcached
  | some cached =>
    obtain ⟨hpersisted, holder, hbehind⟩ := hstale cached hcached
    rw [load_of_merge now (Or.inl hbehind)]
    rw [eraseExpiredKeys_lookup, merge_lookup_of_missing hmissing, hcached]
    simp [addIt, hpersisted, Nat.not_le.mpr holder]

/-- A load and the store behind it. -/
def KeyStore.save (now : Timespec) (storage : Storage) (store : KeyStore) : KeyStore × Storage :=
  (store.load now storage).push

theorem store_of_modified (now : Timespec) (storage : Storage) (hshared : store.shared = true)
    (hmodified : store.storeState = .modified) :
    (store.store now storage).2 =
      save now storage { store with keys := eraseExpiredKeys now store.keys } := by
  unfold KeyStore.store reload save
  rw [hmodified]
  simp [hshared]

theorem store_of_not_modified (now : Timespec) (storage : Storage)
    (h : store.storeState ≠ .modified) : (store.store now storage).2 = (store, storage) := by
  unfold KeyStore.store
  cases hstate : store.storeState with
  | unavailable => rfl
  | loaded => rfl
  | modified => exact absurd hstate h

/-! ### What holds in every run -/

structure Sound (system : Shared) : Prop where
  shared : ∀ side, (system.stores side).shared = true
  deletions : ∀ side, (system.stores side).deletions = []
  revision : ∀ side, (system.stores side).revision ≤ system.storage.revision

/-- The cache that a store or a deletion saves: the one there was, without the
keys that have expired and without the key that is deleted. -/
structure Saves (system : Shared) (event : Event) (saved : KeyStore) : Prop where
  shared : saved.shared = true
  revision : saved.revision = (system.stores event.side).revision
  deletions : ∀ key ∈ saved.deletions, event.operation = .delKey key
  kept : ∀ key, event.operation ≠ .delKey key →
    saved.keys.lookup key =
      (eraseExpiredKeys event.now (system.stores event.side).keys).lookup key
  held : ∀ key record, saved.keys.lookup key = some record →
    (system.stores event.side).keys.lookup key = some record

/-- What an operation can do. -/
inductive Outcome (system : Shared) (event : Event) : Prop where
  | idle (hsame : step system event = system)
      (hquiet : (system.stores event.side).storeState ≠ .modified)
      (hcause : event.operation = .store ∨ (system.stores event.side).storeState = .unavailable)
  | added (key : Key) (keyBlob : KeyBlob) (accessRights : Vector UInt8 4)
      (hoperation : event.operation = .addKey key keyBlob accessRights)
      (hstep : step system event = system.put event.side
        (((system.stores event.side).addKey key keyBlob accessRights).2, system.storage))
      (havailable : (system.stores event.side).storeState ≠ .unavailable)
  | loaded (hoperation : event.operation = .load)
      (hstep : step system event = system.put event.side
        ((system.stores event.side).load event.now system.storage, system.storage))
  | saved (saved : KeyStore) (hsaves : Saves system event saved)
      (hstep : step system event =
        system.put event.side (saved.save event.now system.storage))

theorem eraseExpiredKeys_held {record : KeyRecord}
    (h : (eraseExpiredKeys now keys).lookup key = some record) : keys.lookup key = some record := by
  rw [eraseExpiredKeys_lookup] at h
  exact (filter_eq_some_iff.mp h).1

theorem put_self (system : Shared) (side : Bool) :
    system.put side (system.stores side, system.storage) = system := by
  simp [Shared.put]

theorem outcome_store (hsound : Sound system) (hoperation : event.operation = .store) :
    Outcome system event := by
  by_cases hmodified : (system.stores event.side).storeState = .modified
  · refine .saved { system.stores event.side with
      keys := eraseExpiredKeys event.now (system.stores event.side).keys } ?_ ?_
    · exact
        { shared := hsound.shared event.side
          revision := rfl
          deletions := by simp [hsound.deletions event.side]
          kept := fun _ _ => rfl
          held := fun _ _ hrecord => eraseExpiredKeys_held hrecord }
    · rw [step, hoperation]
      rw [store_of_modified event.now system.storage (hsound.shared event.side) hmodified]
  · refine .idle ?_ hmodified (Or.inl hoperation)
    rw [step, hoperation]
    rw [store_of_not_modified event.now system.storage hmodified]
    exact put_self system event.side

theorem outcome_delKey (hsound : Sound system) (hoperation : event.operation = .delKey key) :
    Outcome system event := by
  by_cases hunavailable : (system.stores event.side).storeState = .unavailable
  · refine .idle ?_ (by simp [hunavailable]) (Or.inr hunavailable)
    rw [step, hoperation]
    dsimp only
    rw [delKey, deleteKey, if_pos hunavailable]
    exact put_self system event.side
  · refine .saved { system.stores event.side with
      storeState := .modified
      keys := eraseExpiredKeys event.now ((system.stores event.side).keys.erase key)
      deletions := [key] } ?_ ?_
    · refine
        { shared := hsound.shared event.side
          revision := rfl
          deletions := by simp [hoperation]
          kept := ?_
          held := ?_ }
      · intro other hother
        have hne : other ≠ key := by
          rintro rfl
          exact hother hoperation
        rw [eraseExpiredKeys_lookup, eraseExpiredKeys_lookup, lookup_erase_ne hne]
      · intro other record hrecord
        have hheld := eraseExpiredKeys_held hrecord
        by_cases hother : other = key
        · subst hother
          rw [lookup_erase] at hheld
          cases hheld
        · rwa [lookup_erase_ne hother] at hheld
    · rw [step, hoperation]
      dsimp only
      rw [delKey, deleteKey, if_neg hunavailable]
      rw [store_of_modified event.now system.storage]
      · simp [hsound.deletions event.side]
      · exact hsound.shared event.side
      · rfl

theorem outcome (hsound : Sound system) (event : Event) : Outcome system event := by
  cases hoperation : event.operation with
  | addKey key keyBlob accessRights =>
    have hstep : step system event = system.put event.side
        (((system.stores event.side).addKey key keyBlob accessRights).2, system.storage) := by
      rw [step, hoperation]
    by_cases hunavailable : (system.stores event.side).storeState = .unavailable
    · refine .idle ?_ (by simp [hunavailable]) (Or.inr hunavailable)
      rw [hstep, addKey, if_pos hunavailable]
      exact put_self system event.side
    · exact .added key keyBlob accessRights hoperation hstep hunavailable
  | delKey key => exact outcome_delKey hsound hoperation
  | load => exact .loaded hoperation (by rw [step, hoperation])
  | store => exact outcome_store hsound hoperation

theorem addKey_of_available (h : store.storeState ≠ .unavailable) (key : Key) (keyBlob : KeyBlob)
    (accessRights : Vector UInt8 4) :
    (store.addKey key keyBlob accessRights).2 =
      { store with
        keys := store.keys.insert key ⟨⟨nextRevision store.revision, keyBlob, accessRights⟩,
          ((store.keys.lookup key).map (·.persisted)).getD false⟩
        storeState := .modified
        deletions := store.deletions.filter (· ≠ key) } := by
  rw [addKey, if_neg h]

theorem nextRevision_eq {revision : Nat} (h : revision + 1 < 2 ^ 32) :
    nextRevision revision = revision + 1 :=
  Nat.mod_eq_of_lt h

section Save

variable {saved : KeyStore} {storage : Storage}

theorem save_lookup (now : Timespec) (key : Key) :
    (saved.save now storage).2.keys.lookup key =
      ((saved.load now storage).keys.lookup key).map KeyRecord.toStoredRecord :=
  Assoc.lookup_mapValues _ key _

theorem stored_save (now : Timespec) (side : Bool) :
    (system.put side (saved.save now storage)).stored key =
      ((saved.load now storage).keys.lookup key).isSome := by
  rw [Shared.stored, put_storage, save_lookup, isSome_map]

end Save

theorem Saves.revision_le {saved : KeyStore} (hsaves : Saves system event saved)
    (hsound : Sound system) : saved.revision ≤ system.storage.revision := by
  rw [hsaves.revision]
  exact hsound.revision _

theorem Saves.save_revision {saved : KeyStore} (hsaves : Saves system event saved)
    (hsound : Sound system) (hcareful : Careful system event) :
    (saved.save event.now system.storage).1.revision = system.storage.revision + 1 ∧
      (saved.save event.now system.storage).2.revision = system.storage.revision + 1 := by
  have hnext : nextRevision (saved.load event.now system.storage).revision =
      system.storage.revision + 1 := by
    rw [load_revision event.now (hsaves.revision_le hsound), nextRevision_eq hcareful.1]
  exact ⟨hnext, hnext⟩

theorem Sound.step (hsound : Sound system) (hcareful : Careful system event) :
    Sound (step system event) := by
  -- the other key store does not change, and the storage only grows older
  have hput : ∀ result : KeyStore × Storage, result.1.shared = true → result.1.deletions = [] →
      result.1.revision ≤ result.2.revision → system.storage.revision ≤ result.2.revision →
      Sound (system.put event.side result) := by
    intro result hshared hdeletions hrevision holder
    exact ⟨put_forall (·.shared = true) hshared fun side _ => hsound.shared side,
      put_forall (·.deletions = []) hdeletions fun side _ => hsound.deletions side,
      put_forall (·.revision ≤ result.2.revision) hrevision fun side _ =>
        (hsound.revision side).trans holder⟩
  cases outcome hsound event with
  | idle hsame => rwa [hsame]
  | added key keyBlob accessRights hoperation hstep havailable =>
    rw [hstep, addKey_of_available havailable]
    refine hput _ (hsound.shared _) ?_ (hsound.revision _) (Nat.le_refl _)
    simp [hsound.deletions event.side]
  | loaded hoperation hstep =>
    rw [hstep]
    refine hput _ ?_ (load_deletions _ _ _) ?_ (Nat.le_refl _)
    · rw [load_shared]
      exact hsound.shared _
    · exact Nat.le_of_eq (load_revision event.now (hsound.revision _))
  | saved saved hsaves hstep =>
    rw [hstep]
    obtain ⟨hfirst, hsecond⟩ := hsaves.save_revision hsound hcareful
    refine hput _ ?_ (load_deletions _ _ _) (by rw [hfirst, hsecond]) (by rw [hsecond]; omega)
    exact (load_shared _ _ _).trans hsaves.shared

/-! ### Deleted keys -/

/-- The key is not in the storage, and a key store that still holds it has read
it there and has not seen that it is gone. -/
structure Forgotten (system : Shared) (key : Key) : Prop where
  missing : system.storage.keys.lookup key = none
  stale : ∀ side cached, (system.stores side).keys.lookup key = some cached →
    cached.persisted = true ∧ cached.revision < system.storage.revision ∧
      (system.stores side).revision < system.storage.revision

theorem forgotten_put {result : KeyStore × Storage} (hmissing : result.2.keys.lookup key = none)
    (hstore : Stale key result.2.revision result.1)
    (hother : ∀ other, other ≠ side → Stale key result.2.revision (system.stores other)) :
    Forgotten (system.put side result) key :=
  ⟨hmissing, put_forall _ hstore hother⟩

theorem forgotten_saved {saved : KeyStore} (hsound : Sound system)
    (hcareful : Careful system event) (hsaves : Saves system event saved)
    (hnone : (saved.load event.now system.storage).keys.lookup key = none)
    (hother : ∀ other, other ≠ event.side →
      ∀ cached, (system.stores other).keys.lookup key = some cached →
        cached.persisted = true ∧ cached.revision ≤ system.storage.revision) :
    Forgotten (system.put event.side (saved.save event.now system.storage)) key := by
  obtain ⟨-, hnext⟩ := hsaves.save_revision hsound hcareful
  refine forgotten_put ?_ ?_ ?_
  · rw [save_lookup, hnone]
    rfl
  · intro cached hcached
    have hsaved : (saved.load event.now system.storage).keys.lookup key = some cached := hcached
    rw [hnone] at hsaved
    cases hsaved
  · intro other hne cached hcached
    obtain ⟨hpersisted, hold⟩ := hother other hne cached hcached
    have hbehind := hsound.revision other
    exact ⟨hpersisted, by omega, by omega⟩

theorem Forgotten.step (h : Forgotten system key) (hsound : Sound system)
    (hcareful : Careful system event) (hnoAdd : event.operation.adds key = false) :
    Forgotten (step system event) key := by
  cases outcome hsound event with
  | idle hsame => rwa [hsame]
  | added other keyBlob accessRights hoperation hstep havailable =>
    have hne : key ≠ other := by
      rintro rfl
      simp [hoperation, Operation.adds] at hnoAdd
    rw [hstep, addKey_of_available havailable]
    refine forgotten_put h.missing ?_ (fun side _ => h.stale side)
    intro cached hcached
    rw [lookup_insert_ne hne] at hcached
    exact h.stale event.side cached hcached
  | loaded hoperation hstep =>
    rw [hstep]
    refine forgotten_put h.missing ?_ (fun side _ => h.stale side)
    intro cached hcached
    have hnone := load_lookup_of_stale event.now h.missing (h.stale event.side)
    rw [hnone] at hcached
    cases hcached
  | saved saved hsaves hstep =>
    rw [hstep]
    refine forgotten_saved hsound hcareful hsaves ?_ ?_
    · refine load_lookup_of_stale event.now h.missing fun cached hcached => ?_
      rw [hsaves.revision]
      exact h.stale event.side cached (hsaves.held key cached hcached)
    · intro other _ cached hcached
      obtain ⟨hpersisted, hold, -⟩ := h.stale other cached hcached
      exact ⟨hpersisted, hold.le⟩

/-- The key store has a key that has never been read from the storage, and knows
that it has to be stored. -/
def Pending (store : KeyStore) (key : Key) : Prop :=
  ∃ cached, store.keys.lookup key = some cached ∧ cached.persisted = false ∧
    store.storeState = .modified

/-- A key added by `side`: it is in the storage or waits to be stored, and a key
store that has seen the storage as it is holds it if the storage does. -/
structure Tracked (system : Shared) (side : Bool) (key : Key) : Prop where
  somewhere : system.stored key = true ∨ Pending (system.stores side) key
  current : ∀ store, (system.stores store).revision = system.storage.revision →
    system.stored key = true → ((system.stores store).keys.lookup key).isSome

/-- No record of the key has expired. -/
def Shared.Unexpired (system : Shared) (key : Key) (now : Timespec) : Prop :=
  (∀ side, Keys.Unexpired now key (system.stores side).keys) ∧
    ∀ record, system.storage.keys.lookup key = some record → hasExpired now record.keyBlob = false

instance (system : Shared) (key : Key) (now : Timespec) : Decidable (system.Unexpired key now) :=
  decidable_of_iff
    ((∀ side, ((system.stores side).keys.lookup key).all fun record =>
        !hasExpired now record.keyBlob) ∧
      (system.storage.keys.lookup key).all fun record => !hasExpired now record.keyBlob)
    (by simp only [all_eq_true, Bool.not_eq_true']; exact Iff.rfl)

theorem stored_eq_false : ¬ system.stored key = true ↔ system.storage.keys.lookup key = none := by
  simp [Shared.stored]

/-- A key store that has seen the storage as it is holds the key if the storage does. -/
def Current (system : Shared) (key : Key) (store : KeyStore) : Prop :=
  store.revision = system.storage.revision → system.stored key = true →
    (store.keys.lookup key).isSome

section Tracking

variable (h : Tracked system side key)

include h

theorem tracked_put
    (hpending : writer = side → ¬ system.stored key = true →
      Pending (system.stores side) key → Pending store key)
    (hcurrent : Current system key store) :
    Tracked (system.put writer (store, system.storage)) side key := by
  refine ⟨?_, put_forall (Current system key) hcurrent fun other _ => h.current other⟩
  by_cases hfound : system.stored key = true
  · exact Or.inl hfound
  · right
    have hwaits := h.somewhere.resolve_left hfound
    by_cases hwriter : writer = side
    · subst hwriter
      rw [put_stores_self]
      exact hpending rfl hfound hwaits
    · rwa [put_stores_other system (Ne.symm hwriter)]

theorem Tracked.added {other : Key} (keyBlob : KeyBlob) (accessRights : Vector UInt8 4)
    (havailable : (system.stores writer).storeState ≠ .unavailable) :
    Tracked (system.put writer
      (((system.stores writer).addKey other keyBlob accessRights).2, system.storage)) side key := by
  rw [addKey_of_available havailable]
  by_cases hother : key = other
  · subst hother
    refine tracked_put h ?_ ?_
    · rintro rfl - ⟨cached, hcached, hnew, -⟩
      exact ⟨_, lookup_insert _, by simp [hcached, hnew], rfl⟩
    · intro _ _
      rw [lookup_insert]
      rfl
  · refine tracked_put h ?_ ?_
    · rintro rfl - ⟨cached, hcached, hnew, -⟩
      refine ⟨cached, ?_, hnew, rfl⟩
      rwa [lookup_insert_ne hother]
    · intro hrevision hstored
      rw [lookup_insert_ne hother]
      exact h.current writer hrevision hstored

variable (hsound : Sound system)

include hsound

theorem Tracked.loaded (hunexpired : system.Unexpired key now)
    (hcareful : (system.stores writer).storeState = .modified →
      (system.stores writer).revision < system.storage.revision) :
    Tracked (system.put writer ((system.stores writer).load now system.storage, system.storage))
      side key := by
  have hkept : key ∉ (system.stores writer).deletions := by
    rw [hsound.deletions writer]
    exact List.not_mem_nil
  refine tracked_put h ?_ ?_
  · rintro rfl hmissing ⟨cached, hcached, hnew, hmodified⟩
    rw [stored_eq_false] at hmissing
    refine ⟨cached, ?_, hnew, ?_⟩
    · exact load_lookup_of_new hcached hnew hmissing (hunexpired.1 writer cached hcached)
    · exact load_modified_of_new hcached hnew hmissing (hcareful hmodified)
  · intro _ hstored
    exact load_isSome (hunexpired.1 writer) hunexpired.2 hkept (hsound.revision writer)
      (fun hcurrent => h.current writer hcurrent hstored) hstored

section Kept

variable (hkey : event.operation ≠ .delKey key) (hunexpired : system.Unexpired key event.now)

include hkey hunexpired

/-- A key store that saves its cache saves the key, if it is the one that has to
or the storage has it. -/
theorem Tracked.save_isSome {saved : KeyStore} (hsaves : Saves system event saved)
    (hduty : system.stored key = true ∨ event.side = side) :
    ((saved.load event.now system.storage).keys.lookup key).isSome := by
  have hsame : saved.keys.lookup key = (system.stores event.side).keys.lookup key := by
    rw [hsaves.kept key hkey]
    exact eraseExpiredKeys_lookup_of_unexpired (hunexpired.1 event.side)
  have hkept : key ∉ saved.deletions := fun hmem => hkey (hsaves.deletions key hmem)
  have hcache : Unexpired event.now key saved.keys := by
    intro record hrecord
    exact hunexpired.1 event.side record (hsame ▸ hrecord)
  by_cases hstored : system.stored key = true
  · refine load_isSome hcache hunexpired.2 hkept ?_ ?_ hstored
    · exact hsaves.revision_le hsound
    · rw [hsaves.revision, hsame]
      exact fun hcurrent => h.current event.side hcurrent hstored
  · obtain ⟨cached, hcached, hnew, -⟩ := h.somewhere.resolve_left hstored
    rw [← hduty.resolve_left hstored, ← hsame] at hcached
    rw [load_lookup_of_new hcached hnew (stored_eq_false.mp hstored) (hcache cached hcached)]
    rfl

theorem Tracked.saved {saved : KeyStore} (hcareful : Careful system event)
    (hsaves : Saves system event saved) :
    Tracked (system.put event.side (saved.save event.now system.storage)) side key := by
  obtain ⟨-, hnext⟩ := hsaves.save_revision hsound hcareful
  refine ⟨?_, put_forall (Current (system.put event.side _) key) ?_ fun other _ hcurrent => ?_⟩
  · rw [stored_save]
    by_cases hduty : system.stored key = true ∨ event.side = side
    · exact Or.inl (h.save_isSome hsound hkey hunexpired hsaves hduty)
    · right
      rw [put_stores_other system fun heq => hduty (Or.inr heq.symm)]
      exact h.somewhere.resolve_left fun hfound => hduty (Or.inl hfound)
  · rw [Current, stored_save]
    exact fun _ hfound => hfound
  · -- the other key store has not seen this revision
    have := hsound.revision other
    rw [put_storage] at hcurrent
    omega

theorem Tracked.step (hcareful : Careful system event) : Tracked (step system event) side key := by
  cases outcome hsound event with
  | idle hsame => rwa [hsame]
  | added other keyBlob accessRights hoperation hstep havailable =>
    rw [hstep]
    exact h.added keyBlob accessRights havailable
  | loaded hoperation hstep =>
    rw [hstep]
    have hload := hcareful.2
    rw [hoperation] at hload
    exact h.loaded hsound hunexpired hload
  | saved saved hsaves hstep =>
    rw [hstep]
    exact h.saved hsound hkey hunexpired hcareful hsaves

theorem Tracked.stored_step (hstored : system.stored key = true) :
    (Keys.step system event).stored key = true := by
  cases outcome hsound event with
  | idle hsame => rwa [hsame]
  | added other keyBlob accessRights hadd hstep =>
    rw [hstep]
    exact hstored
  | loaded hload hstep =>
    rw [hstep]
    exact hstored
  | saved saved hsaves hstep =>
    rw [hstep, stored_save]
    exact h.save_isSome hsound hkey hunexpired hsaves (Or.inl hstored)

end Kept

theorem Tracked.stored_of_store (hoperation : event.operation = .store) (hside : event.side = side)
    (hunexpired : system.Unexpired key event.now) :
    (Keys.step system event).stored key = true := by
  cases outcome hsound event with
  | idle hsame hquiet =>
    rw [hsame]
    refine h.somewhere.resolve_right ?_
    rintro ⟨cached, -, -, hmodified⟩
    exact hquiet (hside ▸ hmodified)
  | added other keyBlob accessRights hadd =>
    rw [hoperation] at hadd
    cases hadd
  | loaded hload =>
    rw [hoperation] at hload
    cases hload
  | saved saved hsaves hstep =>
    rw [hstep, stored_save]
    exact h.save_isSome hsound (by simp [hoperation]) hunexpired hsaves (Or.inr hside)

end Tracking

def run (storage : Storage) (events : List Event) : Shared :=
  events.foldl step (Shared.start storage)

theorem Forgotten.run (h : Forgotten system key) (hsound : Sound system)
    (hcareful : Meets Keys.step Careful system events)
    (hnoAdd : ∀ event ∈ events, event.operation.adds key = false) :
    Forgotten (events.foldl Keys.step system) key := by
  induction events generalizing system with
  | nil => exact h
  | cons event events ih =>
    obtain ⟨hfirst, hrest⟩ := hcareful
    exact ih (h.step hsound hfirst (hnoAdd event List.mem_cons_self)) (hsound.step hfirst) hrest
      (fun later hlater => hnoAdd later (List.mem_cons_of_mem _ hlater))

theorem Tracked.run (h : Tracked system side key) (hsound : Sound system)
    (hcareful : Meets Keys.step Careful system events)
    (hkept : ∀ event ∈ events, event.operation ≠ .delKey key)
    (hunexpired : Meets Keys.step (fun system event => system.Unexpired key event.now) system
      events) (hstored : system.stored key = true ∨
      ∃ event ∈ events, event.side = side ∧ event.operation = .store) :
    (events.foldl Keys.step system).stored key = true := by
  induction events generalizing system with
  | nil => simpa using hstored
  | cons event events ih =>
    obtain ⟨hfirst, hrest⟩ := hcareful
    obtain ⟨hfresh, hlater⟩ := hunexpired
    have hkey := hkept event List.mem_cons_self
    refine ih (h.step hsound hkey hfresh hfirst) (hsound.step hfirst) hrest
      (fun later hmem => hkept later (List.mem_cons_of_mem _ hmem)) hlater ?_
    rcases hstored with hstored | ⟨saving, hmem, hside, hoperation⟩
    · exact Or.inl (h.stored_step hsound hkey hfresh hstored)
    · rcases List.mem_cons.mp hmem with rfl | htail
      · exact Or.inl (h.stored_of_store hsound hoperation hside hfresh)
      · exact Or.inr ⟨saving, htail, hside, hoperation⟩

def sampleKey (n : UInt8) : Key := ⟨.local, Vector.replicate 16 n⟩

end AllJoyn.Keys
