import AllJoyn.Lighting.Managers

/-!
Controllers that send one another the text of their lamp groups
(`LampGroupManager.cc`, `Manager.cc`). Every controller reads the same clock. A
text travels with its age and not with the time of the modification it results
from; the receiver takes the moment of receipt for that time. The time of the
modification itself is carried along as `origin`, which no function of the
source reads, to say which of two states is the later one.
-/

namespace AllJoyn.Lighting

open Lib

variable {c : Controller} {now : Nat}

/-! ### One controller -/

/-- One turn of `GetAdler32Checksum`. -/
def adlerStep (sums : Nat × Nat) (c : Char) : Nat × Nat :=
  let a := (sums.1 + c.toNat) % 65521
  (a, (sums.2 + a) % 65521)

def getChecksum (text : Text) : UInt32 :=
  let (a, b) := text.foldl adlerStep (1, 0)
  UInt32.ofNat (b * 2 ^ 16 + a)

/-- What a file holds. -/
structure Saved where
  text : Text
  checksum : UInt32
  timestamp : Nat
  origin : Nat
  deriving DecidableEq, Repr

/-- The arguments of a blob signal or reply: the last one is an age. -/
structure Blob where
  text : Text
  checksum : UInt32
  age : Nat
  origin : Nat
  deriving DecidableEq, Repr

def Saved.blob (saved : Saved) (now : Nat) : Blob :=
  ⟨saved.text, saved.checksum, now - saved.timestamp, saved.origin⟩

/-- How far `ReadWriteFile` has come in its three parts: the copy of the map
made under the lock, the stamps set when the lock is taken again, and the file
and the messages written without it. -/
inductive Writer where
  | idle
  | copied (items : List (Text × Text × Item)) (origin : Nat)
  | stamped (saved : Saved)
  deriving DecidableEq, Repr

structure Controller where
  manager : Manager
  timeStamp : Nat
  checkSum : UInt32
  updated : Bool
  blobUpdateCycle : Bool
  writer : Writer
  file : Option Saved
  /-- The time of the modification the map results from. -/
  origin : Nat
  /-- A read of the map has not come to an end. -/
  stuck : Bool
  deriving DecidableEq, Repr

namespace Controller

def scheduleFileWrite (c : Controller) (blobUpdate initState : Bool) : Controller :=
  { c with
    updated := true
    blobUpdateCycle := blobUpdate
    manager := { c.manager with initialState := initState } }

/-- The state `ReadSavedData` leaves when there is no file. -/
def start : Controller :=
  Controller.scheduleFileWrite
    { manager := .fresh, timeStamp := 0, checkSum := 0, updated := false, blobUpdateCycle := false,
      writer := .idle, file := none, origin := 0, stuck := false } false true

/-- A method call that changes the lamp groups. -/
def modify (c : Controller) (maxNameLength now : Nat) (call : Access × Method) : Controller :=
  let (code, manager) := Kind.lampGroup.call maxNameLength c.manager call
  if code = .ok then { c with manager := manager, origin := now }.scheduleFileWrite false false
  else c

/-- `GetString` up to the release of the lock. -/
def copy (c : Controller) : Controller :=
  if c.writer = .idle ∧ c.updated then
    { c with updated := false, writer := .copied c.manager.items c.origin }
  else c

/-- `GetString` from the text of the copy on. -/
def stamp (c : Controller) (now : Nat) : Controller :=
  match c.writer with
  | .copied items origin =>
    let output := Kind.lampGroup.getString c.manager.initialState items
    let checksum := getChecksum output
    let timestamp :=
      if c.blobUpdateCycle then c.timeStamp else if c.manager.initialState then 0 else now
    { c with
      timeStamp := timestamp
      checkSum := checksum
      blobUpdateCycle := false
      manager := { c.manager with
        initialState := if c.blobUpdateCycle then c.manager.initialState else false }
      writer := .stamped ⟨output, checksum, timestamp, origin⟩ }
  | _ => c

/-- The rest of `ReadWriteFile`, behind a `GetString` that has stamped a text or
found nothing to write. Requests that meet a write are dropped, and there is a
file whenever there was nothing to write. -/
def flush (c : Controller) (now requests : Nat) (sendUpdate : Bool) : Controller × List Blob :=
  match c.writer with
  | .copied _ _ => (c, [])
  | .stamped saved =>
    ({ c with writer := .idle, file := some saved },
      (if saved.timestamp ≠ 0 then [saved.blob now] else []) ++
        if sendUpdate then [saved.blob now] else [])
  | .idle =>
    match c.file with
    | some saved =>
      (c, List.replicate requests (saved.blob now) ++
        if sendUpdate then [saved.blob now] else [])
    | none => (c, [])

/-- The condition of `HandleReceivedBlob`. -/
def Accepts (c : Controller) (now : Nat) (blob : Blob) : Prop :=
  (c.timeStamp = 0 ∨ now - c.timeStamp > blob.age) ∧ c.checkSum ≠ blob.checksum

instance (c : Controller) (now : Nat) (blob : Blob) : Decidable (c.Accepts now blob) :=
  inferInstanceAs (Decidable (_ ∧ _))

def handleReceivedBlob (c : Controller) (now : Nat) (blob : Blob) : Controller :=
  if c.Accepts now blob then
    match Kind.lampGroup.replaceMap c.manager blob.text with
    | none => { c with stuck := true }
    | some manager =>
      { c with
        manager := manager, timeStamp := now, checkSum := blob.checksum,
        origin := blob.origin }.scheduleFileWrite true false
  else c

/-- A local modification has not been given its time yet. -/
def Pending (c : Controller) : Prop :=
  (c.updated ∨ c.writer matches .copied _ _) ∧ c.blobUpdateCycle = false ∧
    c.manager.initialState = false

instance (c : Controller) : Decidable c.Pending := inferInstanceAs (Decidable (_ ∧ _))

/-! ### What one controller keeps -/

/-- The origins of everything the controller holds lie in the past, and the
time stamp covers the state unless a local modification is pending. -/
structure Sound (now : Nat) (c : Controller) : Prop where
  origin_le : c.origin ≤ now
  initial : c.manager.initialState → c.origin = 0
  settled : ¬c.Pending → c.origin ≤ c.timeStamp
  copied : ∀ items origin, c.writer = .copied items origin → origin ≤ now
  stamped : ∀ saved, c.writer = .stamped saved → saved.origin ≤ now
  file : ∀ saved, c.file = some saved → saved.origin ≤ now

theorem Sound.mono {now later : Nat} (hc : c.Sound now) (hle : now ≤ later) :
    c.Sound later where
  origin_le := hc.origin_le.trans hle
  initial := hc.initial
  settled := hc.settled
  copied items origin h := (hc.copied items origin h).trans hle
  stamped saved h := (hc.stamped saved h).trans hle
  file saved h := (hc.file saved h).trans hle

theorem Sound.modify (hc : c.Sound now) (maxNameLength : Nat) (call : Access × Method) :
    (c.modify maxNameLength now call).Sound now ∧
      c.origin ≤ (c.modify maxNameLength now call).origin := by
  unfold Controller.modify
  dsimp only
  split_ifs
  · refine ⟨⟨le_rfl, by simp [scheduleFileWrite], ?_, hc.copied, hc.stamped, hc.file⟩,
      hc.origin_le⟩
    intro hpending
    simp [Pending, scheduleFileWrite] at hpending
  · exact ⟨hc, le_rfl⟩

theorem Sound.copy (hc : c.Sound now) : c.copy.Sound now ∧ c.copy.origin = c.origin := by
  unfold Controller.copy
  split_ifs with hcopy
  · refine ⟨⟨hc.origin_le, hc.initial, ?_, ?_, by simp, hc.file⟩, rfl⟩
    · intro hpending
      refine hc.settled fun h => hpending ?_
      exact ⟨.inr rfl, h.2⟩
    · intro items origin h
      cases h
      exact hc.origin_le
  · exact ⟨hc, rfl⟩

theorem Sound.stamp (hc : c.Sound now) :
    (c.stamp now).Sound now ∧ (c.stamp now).origin = c.origin := by
  unfold Controller.stamp
  cases hwriter : c.writer with
  | idle | stamped => exact ⟨hc, rfl⟩
  | copied items origin =>
    refine ⟨⟨hc.origin_le, ?_, ?_, by simp, ?_, hc.file⟩, rfl⟩
    · intro hinitial
      refine hc.initial ?_
      cases hcycle : c.blobUpdateCycle with
      | true => simpa [hcycle] using hinitial
      | false => simp [hcycle] at hinitial
    · -- The stamp that is kept is one that covers the state already.
      intro _
      split_ifs with hcycle hinitial
      · exact hc.settled fun h => by simp [Pending, hcycle] at h
      · exact (hc.initial hinitial).le
      · exact hc.origin_le
    · intro saved h
      cases h
      exact hc.copied items origin hwriter

theorem mem_singleton_of_ite {p : Prop} [Decidable p] {blob sent : Blob}
    (h : blob ∈ if p then [sent] else []) : blob = sent := by
  split_ifs at h
  · exact List.mem_singleton.mp h
  · contradiction

theorem Sound.flush (hc : c.Sound now) (requests : Nat) (sendUpdate : Bool) :
    (c.flush now requests sendUpdate).1.Sound now ∧
      (c.flush now requests sendUpdate).1.origin = c.origin ∧
      ∀ blob ∈ (c.flush now requests sendUpdate).2, blob.origin ≤ now := by
  unfold Controller.flush
  cases hwriter : c.writer with
  | copied items origin => exact ⟨hc, rfl, by simp⟩
  | stamped saved =>
    have hsaved : saved.origin ≤ now := hc.stamped saved hwriter
    refine ⟨⟨hc.origin_le, hc.initial, ?_, by simp, by simp, ?_⟩, rfl, ?_⟩
    · intro hpending
      refine hc.settled fun h => hpending ?_
      simpa [Pending, hwriter] using h
    · intro other h
      cases h
      exact hsaved
    · intro blob hblob
      obtain rfl : blob = saved.blob now := by
        rcases List.mem_append.mp hblob with h | h
        · exact mem_singleton_of_ite h
        · exact mem_singleton_of_ite h
      exact hsaved
  | idle =>
    cases hfile : c.file with
    | none => exact ⟨hc, rfl, by simp⟩
    | some saved =>
      refine ⟨hc, rfl, ?_⟩
      intro blob hblob
      obtain rfl : blob = saved.blob now := by
        rcases List.mem_append.mp hblob with h | h
        · exact List.eq_of_mem_replicate h
        · exact mem_singleton_of_ite h
      exact hc.file saved hfile

theorem Sound.handleReceivedBlob (hc : c.Sound now) {blob : Blob} (hblob : blob.origin ≤ now) :
    (c.handleReceivedBlob now blob).Sound now := by
  unfold Controller.handleReceivedBlob
  split_ifs
  · cases Kind.lampGroup.replaceMap c.manager blob.text with
    | none =>
      exact ⟨hc.origin_le, hc.initial, hc.settled, hc.copied, hc.stamped, hc.file⟩
    | some manager =>
      exact ⟨hblob, by simp [scheduleFileWrite], fun _ => hblob, hc.copied, hc.stamped,
        hc.file⟩
  · exact hc

/-- A blob of an earlier modification is refused if the receiver has stamped
its own state and the age of the blob reaches back to that state. -/
theorem Sound.origin_le_of_receive (hc : c.Sound now) {blob : Blob}
    (hcareful : blob.origin < c.origin → ¬c.Pending ∧ now ≤ c.origin + blob.age) :
    c.origin ≤ (c.handleReceivedBlob now blob).origin := by
  unfold Controller.handleReceivedBlob
  split_ifs with haccepts
  · cases Kind.lampGroup.replaceMap c.manager blob.text with
    | none => exact le_rfl
    | some manager =>
      refine Nat.le_of_not_lt fun hearlier => ?_
      obtain ⟨hpending, hage⟩ := hcareful hearlier
      have hstamp : c.origin ≤ c.timeStamp := hc.settled hpending
      rcases haccepts.1 with hzero | holder
      · omega
      · omega
  · exact le_rfl

end Controller

/-! ### The controllers and the blobs between them -/

variable {ι : Type*} [DecidableEq ι]

structure Network (ι : Type*) where
  clock : Nat
  controllers : ι → Controller
  /-- Every blob that has been sent, each of which may arrive at any time, at
  any controller and more than once. -/
  sent : List Blob

inductive Action (ι : Type*) where
  | modify (i : ι) (call : Access × Method)
  | copy (i : ι)
  | stamp (i : ι)
  | flush (i : ι) (requests : Nat) (sendUpdate : Bool)
  | receive (i : ι) (index : Nat)
  deriving DecidableEq, Repr

/-- An action, and the time that has passed since the one before. -/
structure Happening (ι : Type*) where
  elapsed : Nat
  action : Action ι
  deriving DecidableEq, Repr

namespace Network

/-- The clocks are past zero, the stamp of a controller that knows nothing. -/
def start (clock : Nat) : Network ι := ⟨clock + 1, fun _ => Controller.start, []⟩

/-- Runs a function of a controller that is not stuck. -/
def update (network : Network ι) (i : ι) (change : Controller → Controller) : Network ι :=
  { network with
    controllers := Function.update network.controllers i
      (if (network.controllers i).stuck then network.controllers i
        else change (network.controllers i)) }

def act (maxNameLength : Nat) (network : Network ι) : Action ι → Network ι
  | .modify i call => network.update i fun c => c.modify maxNameLength network.clock call
  | .copy i => network.update i Controller.copy
  | .stamp i => network.update i fun c => c.stamp network.clock
  | .flush i requests sendUpdate =>
    let result := (network.controllers i).flush network.clock requests sendUpdate
    if (network.controllers i).stuck then network
    else { network.update i fun _ => result.1 with sent := network.sent ++ result.2 }
  | .receive i index =>
    match network.sent[index]? with
    | none => network
    | some blob => network.update i fun c => c.handleReceivedBlob network.clock blob

def tick (network : Network ι) (elapsed : Nat) : Network ι :=
  { network with clock := network.clock + elapsed }

def step (maxNameLength : Nat) (network : Network ι) (happening : Happening ι) : Network ι :=
  (network.tick happening.elapsed).act maxNameLength happening.action

/-- A blob of an earlier modification than that of the receiver's state only
arrives when the receiver has stamped its own state, and with an age that
reaches back to the receiver's modification. -/
def Careful (network : Network ι) (happening : Happening ι) : Prop :=
  match happening.action with
  | .receive i index =>
    ∀ blob ∈ network.sent[index]?, blob.origin < (network.controllers i).origin →
      ¬(network.controllers i).Pending ∧
        network.clock + happening.elapsed ≤ (network.controllers i).origin + blob.age
  | _ => True

instance (network : Network ι) (happening : Happening ι) :
    Decidable (network.Careful happening) := by
  unfold Careful
  cases happening.action <;> exact inferInstance

structure Sound (network : Network ι) : Prop where
  controllers : ∀ i, (network.controllers i).Sound network.clock
  sent : ∀ blob ∈ network.sent, blob.origin ≤ network.clock

variable {network : Network ι}

theorem Sound.update (hnetwork : network.Sound) (i : ι)
    (change : Controller → Controller)
    (hchange : (change (network.controllers i)).Sound network.clock) :
    (network.update i change).Sound where
  controllers j := by
    unfold Network.update
    by_cases hj : j = i
    · subst hj
      dsimp only
      rw [Function.update_self]
      split_ifs
      · exact hnetwork.controllers j
      · exact hchange
    · dsimp only
      rw [Function.update_of_ne hj]
      exact hnetwork.controllers j
  sent := hnetwork.sent

theorem origin_le_update (network : Network ι) (i : ι) (change : Controller → Controller)
    (hchange : (network.controllers i).origin ≤ (change (network.controllers i)).origin) (j : ι) :
    (network.controllers j).origin ≤ ((network.update i change).controllers j).origin := by
  unfold Network.update
  by_cases hj : j = i
  · subst hj
    dsimp only
    rw [Function.update_self]
    split_ifs
    · exact le_rfl
    · exact hchange
  · dsimp only
    rw [Function.update_of_ne hj]

omit [DecidableEq ι] in
theorem Sound.tick (hnetwork : network.Sound) (elapsed : Nat) :
    (network.tick elapsed).Sound where
  controllers i := (hnetwork.controllers i).mono (Nat.le_add_right _ _)
  sent blob hblob := (hnetwork.sent blob hblob).trans (Nat.le_add_right _ _)

/-- A step keeps the network sound, and a careful one gives no controller an
earlier state. -/
theorem Sound.step (hnetwork : network.Sound) (maxNameLength : Nat)
    (happening : Happening ι) :
    (network.step maxNameLength happening).Sound ∧
      (network.Careful happening → ∀ i, (network.controllers i).origin ≤
        ((network.step maxNameLength happening).controllers i).origin) := by
  obtain ⟨elapsed, action⟩ := happening
  have hticked := hnetwork.tick elapsed
  let ticked := network.tick elapsed
  cases action with
  | modify i call =>
    have hmodify := (hticked.controllers i).modify maxNameLength call
    let change := fun c : Controller => c.modify maxNameLength ticked.clock call
    exact ⟨hticked.update i change hmodify.1,
      fun _ => origin_le_update ticked i change hmodify.2⟩
  | copy i =>
    have hcopy := (hticked.controllers i).copy
    exact ⟨hticked.update i Controller.copy hcopy.1,
      fun _ => origin_le_update ticked i Controller.copy hcopy.2.ge⟩
  | stamp i =>
    have hstamp := (hticked.controllers i).stamp
    let change := fun c : Controller => c.stamp ticked.clock
    exact ⟨hticked.update i change hstamp.1,
      fun _ => origin_le_update ticked i change hstamp.2.ge⟩
  | flush i requests sendUpdate =>
    obtain ⟨hflush, horigin, hblobs⟩ := (hticked.controllers i).flush requests sendUpdate
    let change := fun _ : Controller =>
      ((ticked.controllers i).flush ticked.clock requests sendUpdate).1
    unfold Network.step Network.act
    dsimp only
    split_ifs
    · exact ⟨hticked, fun _ _ => le_rfl⟩
    · refine ⟨⟨(hticked.update i change hflush).controllers, ?_⟩,
        fun _ => origin_le_update ticked i change horigin.ge⟩
      intro blob hblob
      rcases List.mem_append.mp hblob with hold | hnew
      · exact hticked.sent blob hold
      · exact hblobs blob hnew
  | receive i index =>
    unfold Network.step Network.act
    dsimp only
    cases hblob : (network.tick elapsed).sent[index]? with
    | none => exact ⟨hticked, fun _ _ => le_rfl⟩
    | some blob =>
      have horigin := hticked.sent blob (List.mem_of_getElem? hblob)
      let change := fun c : Controller => c.handleReceivedBlob ticked.clock blob
      refine ⟨hticked.update i change ((hticked.controllers i).handleReceivedBlob horigin), ?_⟩
      intro hcareful
      exact origin_le_update ticked i change
        ((hticked.controllers i).origin_le_of_receive (hcareful blob hblob))

end Network

end AllJoyn.Lighting
