import AllJoyn.Keys.KeyStore

/-!
Calls of a key store that wait (`KeyStore.cc`). `Load` waits for the event `loaded`,
which `Pull` sets, and both take the lock of the key store. `Pull` returns from a
key store that has been loaded before it comes to the event, and from any other
one with the lock. A call that never returns has no result.
-/

namespace AllJoyn.Keys

open Crypto Lib

/-! ### Loads -/

structure Loader where
  store : KeyStore
  /-- The thread that holds the lock, and how often it has taken it. -/
  holder : Option (Nat × Nat)
  /-- The event, if there is one, and if it is set. -/
  loaded : Option Bool

/-- The lock is a recursive mutex. -/
def Loader.lock (thread : Nat) (loader : Loader) : Option Loader :=
  match loader.holder with
  | none => some { loader with holder := some (thread, 1) }
  | some (owner, depth) =>
    if owner = thread then some { loader with holder := some (owner, depth + 1) } else none

def Loader.unlock (loader : Loader) : Loader :=
  { loader with
    holder := loader.holder.bind fun (owner, depth) =>
      if depth ≤ 1 then none else some (owner, depth - 1) }

/-- `Pull` on a source whose bytes are read with the status `read`. -/
def Loader.pull (thread : Nat) (read : QStatus) (loader : Loader) : Option (QStatus × Loader) := do
  let loader ← loader.lock thread
  if loader.store.storeState ≠ .unavailable then return (.ok, loader.unlock)
  else return (read, { loader with loaded := loader.loaded.map fun _ => true })

/-- `Load`, with `LoadPersistentKeys`, when no other load is under way. The listener calls
`Pull` from a thread of its choice, before or after it has returned. -/
def Loader.load (caller thread : Nat) (returned : Bool) (read : QStatus) (now : Timespec)
    (storage : Storage) (loader : Loader) : Option (QStatus × Loader) := do
  let loader ← loader.lock caller
  let (pulled, loader) ← { loader with loaded := some false }.unlock.pull thread read
  let status := if returned then .ok else pulled
  -- the event is waited for
  if status = .ok ∧ loader.loaded ≠ some true then none
  else
    let loader ← loader.lock caller
    let loader := { loader with loaded := none }.unlock
    if status ≠ .ok then return (status, loader)
    else
      let loader ← loader.lock caller
      return (status, { loader with store := loader.store.load now storage }.unlock)

section

variable {store : KeyStore} (caller thread : Nat) (returned : Bool) (read : QStatus)
  (now : Timespec) (storage : Storage)

theorem pull_of_loaded (hstate : store.storeState ≠ .unavailable) :
    Loader.pull thread read ⟨store, none, some false⟩ =
      some (.ok, ⟨store, none, some false⟩) := by
  simp [Loader.pull, Loader.lock, Loader.unlock, hstate]

theorem pull_of_unavailable (hstate : store.storeState = .unavailable) :
    Loader.pull thread read ⟨store, none, some false⟩ =
      some (read, ⟨store, some (thread, 1), some true⟩) := by
  simp [Loader.pull, Loader.lock, hstate]

theorem load_of_loaded (hstate : store.storeState ≠ .unavailable) :
    Loader.load caller thread returned read now storage ⟨store, none, none⟩ = none := by
  have hpull := pull_of_loaded thread read hstate
  simp [Loader.load, Loader.lock, Loader.unlock, hpull]

theorem load_of_unavailable (hstate : store.storeState = .unavailable) :
    (Loader.load caller thread returned read now storage ⟨store, none, none⟩).isSome ↔
      thread = caller := by
  have hpull (read : QStatus) := pull_of_unavailable thread read hstate
  by_cases hthread : thread = caller
  · subst hthread
    cases returned <;> by_cases hread : read = .ok <;>
      simp [Loader.load, Loader.lock, Loader.unlock, hpull, hread]
  · cases returned <;> simp [Loader.load, Loader.lock, Loader.unlock, hpull, hthread]

/-- The event is set where the lock is not released, and a load returns only for a key store
that has not been loaded, if the listener answers from the thread of the load. -/
theorem load_returns_iff (store : KeyStore) :
    ∃ status loader, Loader.pull thread read ⟨store, none, some false⟩ = some (status, loader) ∧
      (loader.loaded = some true ↔ store.storeState = .unavailable) ∧
      (loader.holder = none ↔ store.storeState ≠ .unavailable) ∧
      ((Loader.load caller thread returned read now storage ⟨store, none, none⟩).isSome ↔
        store.storeState = .unavailable ∧ thread = caller) := by
  by_cases hstate : store.storeState = .unavailable
  · refine ⟨read, _, pull_of_unavailable thread read hstate, by simp [hstate], by simp [hstate], ?_⟩
    rw [load_of_unavailable caller thread returned read now storage hstate]
    simp [hstate]
  · refine ⟨.ok, _, pull_of_loaded thread read hstate, by simp [hstate], by simp [hstate], ?_⟩
    rw [load_of_loaded caller thread returned read now storage hstate]
    simp [hstate]

end

/-- A key store that has been loaded is not loaded again, and one that has not been leaves
its lock taken. -/
theorem load_waits_for_ever :
    (Loader.load 0 0 false .ok ⟨0, 0⟩ ⟨0, ∅⟩
        ⟨{ KeyStore.new false with storeState := .loaded }, none, none⟩).isNone ∧
      (Loader.pull 0 .ok ⟨KeyStore.new false, none, some false⟩).map (·.2.holder) =
        some (some (0, 1)) := by
  decide

/-! ### Unsaved changes -/

/-- What is written of the keys. -/
def stored (keys : KeyMap) : AList fun _ : Key => StoredRecord :=
  Assoc.mapValues KeyRecord.toStoredRecord keys

/-- A key store, with the keys that were last written by `Push` or read by `Pull`. -/
structure Saved where
  store : KeyStore
  saved : AList fun _ : Key => StoredRecord

inductive StoreCall where
  | addKey (key : Key) (keyBlob : KeyBlob) (accessRights : Vector UInt8 4)
  | delKey (key : Key)
  | setKeyExpiration (key : Key) (expiration : Timespec)
  | getKeyExpiration (key : Key)
  | load
  | store

section

variable (now : Timespec) (storage : Storage)

/-- `Load` in one thread, with a listener that reads the storage. -/
def Saved.load (s : Saved) : Option Saved :=
  (Loader.load 0 0 false .ok now storage ⟨s.store, none, none⟩).map fun result =>
    ⟨result.2.store, storage.keys⟩

def Saved.reload (s : Saved) : Option Saved :=
  if s.store.shared then s.load now storage else some s

/-- `Store`. -/
def Saved.write (s : Saved) : Option Saved :=
  if s.store.storeState ≠ .modified then some s
  else do
    let s ← Saved.reload now storage
      { s with store := { s.store with keys := eraseExpiredKeys now s.store.keys } }
    return ⟨s.store.push.1, s.store.push.2.keys⟩

def Saved.call (s : Saved) : StoreCall → Option Saved
  | .addKey key keyBlob accessRights =>
    some { s with store := (s.store.addKey key keyBlob accessRights).2 }
  | .delKey key =>
    match s.store.deleteKey key with
    | (.ok, store) => { s with store := store }.write now storage
    | _ => some s
  | .setKeyExpiration key expiration =>
    match s.store.keys.lookup key with
    | some record =>
      if s.store.storeState = .unavailable then some s
      else
        let record := { record with keyBlob := { record.keyBlob with expiration := expiration } }
        { s with store := { s.store with
            keys := s.store.keys.insert key record, storeState := .modified } }.write now storage
    | none => some s
  | .getKeyExpiration _ => if s.store.storeState = .unavailable then some s else s.reload now storage
  | .load => s.load now storage
  | .store => s.write now storage

/-- The key store is loaded, and changes that are not saved are marked. -/
def Saved.Marked (s : Saved) : Prop :=
  s.store.storeState = .modified ∨ s.store.storeState = .loaded ∧ stored s.store.keys = s.saved

variable {s s' : Saved}

theorem Saved.Marked.available (hmarked : s.Marked) : s.store.storeState ≠ .unavailable := by
  rcases hmarked with hstate | ⟨hstate, -⟩ <;> simp [hstate]

theorem Saved.Marked.load (hmarked : s.Marked) : s.load now storage = none := by
  rw [Saved.load, load_of_loaded 0 0 false .ok now storage hmarked.available]
  rfl

theorem Saved.Marked.reload (hmarked : s.Marked) (hreload : s.reload now storage = some s') :
    s' = s := by
  rw [Saved.reload, hmarked.load] at hreload
  split_ifs at hreload
  cases hreload
  rfl

theorem Saved.write_of_modified (hmodified : s.store.storeState = .modified) :
    s.write now storage =
      if s.store.shared then none
      else some ⟨(KeyStore.push { s.store with keys := eraseExpiredKeys now s.store.keys }).1,
        stored (eraseExpiredKeys now s.store.keys)⟩ := by
  have hmarked : Saved.Marked { s with store := { s.store with
    keys := eraseExpiredKeys now s.store.keys } } := .inl hmodified
  rw [Saved.write, if_neg (not_not.mpr hmodified), Saved.reload, hmarked.load]
  split_ifs <;> rfl

theorem Saved.Marked.write (hmarked : s.Marked) (hwrite : s.write now storage = some s') :
    s'.Marked := by
  by_cases hmodified : s.store.storeState = .modified
  · rw [Saved.write_of_modified now storage hmodified] at hwrite
    split_ifs at hwrite
    cases hwrite
    exact .inr ⟨rfl, rfl⟩
  · rw [Saved.write, if_pos hmodified] at hwrite
    cases hwrite
    exact hmarked

theorem Saved.Marked.call (hmarked : s.Marked) (call : StoreCall)
    (hcall : s.call now storage call = some s') : s'.Marked := by
  have hstate := hmarked.available
  cases call with
  | addKey key keyBlob accessRights =>
    cases hcall
    simp [Saved.Marked, KeyStore.addKey, hstate]
  | delKey key =>
    simp only [Saved.call, KeyStore.deleteKey, hstate] at hcall
    exact Saved.Marked.write now storage (.inl rfl) hcall
  | setKeyExpiration key expiration =>
    unfold Saved.call at hcall
    dsimp only at hcall
    split at hcall
    · rw [if_neg hstate] at hcall
      exact Saved.Marked.write now storage (.inl rfl) hcall
    · cases hcall
      exact hmarked
  | getKeyExpiration key =>
    rw [Saved.call, if_neg hstate] at hcall
    rw [hmarked.reload now storage hcall]
    exact hmarked
  | load =>
    rw [Saved.call, hmarked.load] at hcall
    cases hcall
  | store => exact hmarked.write now storage hcall

/-- The key store after calls that have all returned, each with its time and the storage as
it is then. -/
def Saved.run (start : Saved) (calls : List (Timespec × Storage × StoreCall)) : Option Saved :=
  calls.foldlM (fun s call => s.call call.1 call.2.1 call.2.2) start

theorem Saved.Marked.run {start : Saved} (hmarked : start.Marked)
    {calls : List (Timespec × Storage × StoreCall)} (hrun : start.run calls = some s) :
    s.Marked := by
  induction calls generalizing start with
  | nil =>
    cases hrun
    exact hmarked
  | cons call calls ih =>
    rw [Saved.run] at hrun
    obtain ⟨next, hcall, hrest⟩ := Option.bind_eq_some_iff.mp hrun
    exact ih (hmarked.call call.1 call.2.1 call.2.2 hcall) hrest

/-- Changes that are not saved are marked, and the next `Store` writes the keys unless it
loads the storage first. -/
theorem unsaved_written_iff {start : Saved} (hmarked : start.Marked)
    (calls : List (Timespec × Storage × StoreCall)) (hrun : start.run calls = some s) :
    (stored s.store.keys ≠ s.saved → s.store.storeState = .modified ∧
        ∃ s', s.write now storage = some s' ∧
          s'.saved = stored (eraseExpiredKeys now s.store.keys)) ↔
      stored s.store.keys = s.saved ∨ s.store.shared = false := by
  have hmarked := hmarked.run hrun
  by_cases hsaved : stored s.store.keys = s.saved
  · simp [hsaved]
  have hmodified : s.store.storeState = .modified :=
    hmarked.resolve_right fun hloaded => hsaved hloaded.2
  rw [Saved.write_of_modified now storage hmodified]
  cases s.store.shared <;> simp [hsaved, hmodified]

end

/-- A key is added to a loaded key store without keys. -/
def addedTo (shared : Bool) : Option Saved :=
  Saved.run ⟨{ KeyStore.new shared with storeState := .loaded }, ∅⟩ [(⟨0, 0⟩, ⟨0, ∅⟩,
    .addKey ⟨.remote, Vector.replicate 16 0⟩ (KeyBlob.new 1) (Vector.replicate 4 0))]

theorem unsaved_written_unshared : ∃ s, addedTo false = some s ∧
    (stored s.store.keys ≠ s.saved → s.store.storeState = .modified ∧
      ∃ s', s.write ⟨0, 0⟩ ⟨0, ∅⟩ = some s' ∧
        s'.saved = stored (eraseExpiredKeys ⟨0, 0⟩ s.store.keys)) := by
  obtain ⟨s, hrun⟩ : ∃ s, addedTo false = some s := ⟨_, rfl⟩
  have hshared : s.store.shared = false := by
    cases hrun
    rfl
  exact ⟨s, hrun, (unsaved_written_iff _ _ (.inr ⟨rfl, rfl⟩) _ hrun).mpr (.inr hshared)⟩

/-- `Store` of a shared key store never returns. -/
theorem unsaved_not_written_shared : ∃ s, addedTo true = some s ∧
    (stored s.store.keys).entries.length = 1 ∧ s.saved = ∅ ∧
      (s.write ⟨0, 0⟩ ⟨0, ∅⟩).isNone :=
  ⟨_, rfl, rfl, rfl, rfl⟩

end AllJoyn.Keys
