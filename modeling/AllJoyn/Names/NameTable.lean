import Mathlib.Algebra.GroupWithZero.Nat
import Mathlib.Data.List.AList
import AllJoyn.Status

/-!
The router's name table (`NameTable.cc`): the endpoints registered under their
unique names, the queue of local owners of each well-known name, and the owners
that remote daemons announced for well-known names of theirs.

The table is passed explicitly and every operation returns the
`NameOwnerChanged` notifications it makes, in order. The iteration order of the
hash maps is the order of the association lists.
-/

namespace AllJoyn.Names

/-- A unique name, `:guid.number`. Its colon keeps it apart from the well-known
names and from the empty string that stands for no owner. -/
structure UniqueName where
  text : List Char
  colon : text.head? = some ':'
  deriving DecidableEq

/-- A well-known name, or alias. -/
structure WellKnownName where
  text : List Char
  noColon : text.head? ≠ some ':'
  deriving DecidableEq

/-- Any bus name; the constructor is what `busName[0] == ':'` asks for. -/
inductive BusName where
  | unique (name : UniqueName)
  | wellKnown (name : WellKnownName)
  deriving DecidableEq

/-- The part of a unique name before the first period. -/
def UniqueName.daemon (name : UniqueName) : List Char :=
  name.text.takeWhile (· ≠ '.')

/-- `SessionOpts::NameTransferType`. -/
inductive NameTransfer where
  | allNames
  | slsNames
  deriving DecidableEq, Repr

/-- A `VirtualEndpoint`: an object with a fixed name, and the name transfer of
each bus-to-bus endpoint it can be reached through at the moment. It is valid
from its construction on. -/
structure VirtualEndpoint where
  uniqueName : UniqueName
  object : Nat
  busToBus : List NameTransfer
  deriving DecidableEq

/-- `ManagedObj::iden`: the same object. -/
def VirtualEndpoint.iden (left right : VirtualEndpoint) : Bool :=
  left.uniqueName = right.uniqueName ∧ left.object = right.object

/-- An endpoint registered with the router. Only a local one can go invalid. -/
inductive Endpoint where
  | localEndpoint (uniqueName : UniqueName) (isValid : Bool)
  | virtualEndpoint (endpoint : VirtualEndpoint)
  deriving DecidableEq

def Endpoint.uniqueName : Endpoint → UniqueName
  | .localEndpoint name _ => name
  | .virtualEndpoint endpoint => endpoint.uniqueName

def Endpoint.isValid : Endpoint → Bool
  | .localEndpoint _ isValid => isValid
  | .virtualEndpoint _ => true

def Endpoint.invalidate : Endpoint → Endpoint
  | .localEndpoint name _ => .localEndpoint name false
  | .virtualEndpoint endpoint => .virtualEndpoint endpoint

@[simp]
theorem Endpoint.invalidate_uniqueName (endpoint : Endpoint) :
    endpoint.invalidate.uniqueName = endpoint.uniqueName := by
  cases endpoint <;> rfl

/-- `GetNameTransfer(const VirtualEndpoint&)`. -/
def VirtualEndpoint.getNameTransfer (endpoint : VirtualEndpoint) : NameTransfer :=
  if endpoint.busToBus = [] then .allNames
  else if endpoint.busToBus.any (· ≠ .slsNames) then .allNames
  else .slsNames

/-- `GetNameTransfer(BusEndpoint&)`. -/
def Endpoint.getNameTransfer : Endpoint → NameTransfer
  | .localEndpoint _ _ => .allNames
  | .virtualEndpoint endpoint => endpoint.getNameTransfer

structure UniqueNameEntry where
  endpoint : Endpoint
  nameTransfer : NameTransfer
  deriving DecidableEq

/-- The flags of `RequestName`. -/
def allowReplacement : BitVec 32 := 0x01#32
def replaceExisting : BitVec 32 := 0x02#32
def doNotQueue : BitVec 32 := 0x04#32

structure NameQueueEntry where
  endpointName : UniqueName
  flags : BitVec 32
  deriving DecidableEq

structure VirtualAliasEntry where
  endpoint : VirtualEndpoint
  nameTransfer : NameTransfer
  deriving DecidableEq

/-- The unique name table. An endpoint is registered under its own name only. -/
abbrev UniqueNameMap : Type :=
  AList (fun name : UniqueName =>
    { entry : UniqueNameEntry // entry.endpoint.uniqueName = name })

structure NameTable where
  uniqueNames : UniqueNameMap
  aliasNames : AList (fun _ : WellKnownName => List NameQueueEntry)
  virtualAliasNames : AList (fun _ : WellKnownName => VirtualAliasEntry)

def NameTable.empty : NameTable := ⟨∅, ∅, ∅⟩

/-- One `NameOwnerChanged` call. -/
structure Notification where
  name : BusName
  oldOwner : Option UniqueName
  oldOwnerNameTransfer : NameTransfer
  newOwner : Option UniqueName
  newOwnerNameTransfer : NameTransfer
  deriving DecidableEq

inductive RequestReply where
  | primaryOwner
  | inQueue
  | exists
  | alreadyOwner
  deriving DecidableEq, Repr

inductive ReleaseReply where
  | released
  | nonExistent
  | notOwner
  deriving DecidableEq, Repr

namespace NameTable

/-- The part of `FindEndpoint` that handles unique names. -/
def findUnique (t : NameTable) (name : UniqueName) : Option Endpoint :=
  (t.uniqueNames.lookup name).map (·.1.endpoint)

/-- Whether `FindEndpoint(name)->IsValid()` for a unique name; an endpoint that
is not registered is the invalid default endpoint. -/
def isValid (t : NameTable) (name : UniqueName) : Bool :=
  (t.findUnique name).any Endpoint.isValid

def findEndpoint (t : NameTable) : BusName → Option Endpoint
  | .unique name => t.findUnique name
  | .wellKnown name =>
    let owner := (t.aliasNames.lookup name).bind fun queue =>
      queue.head?.bind fun primary => t.findUnique primary.endpointName
    if owner.any Endpoint.isValid then owner
    else
      match t.virtualAliasNames.lookup name with
      | some entry => some (.virtualEndpoint entry.endpoint)
      | none => owner

/-- `GetNameOwner`: the front of the local queue, else the virtual owner. -/
def getNameOwner (t : NameTable) (name : WellKnownName) : Option UniqueName :=
  match t.aliasNames.lookup name with
  | some queue => queue.head?.map (·.endpointName)
  | none => (t.virtualAliasNames.lookup name).map (·.endpoint.uniqueName)

/-- `aliasNames[aliasName] = queue`. -/
def setQueue (t : NameTable) (aliasName : WellKnownName) (queue : List NameQueueEntry) :
    NameTable :=
  { t with aliasNames := t.aliasNames.insert aliasName queue }

def eraseQueue (t : NameTable) (aliasName : WellKnownName) : NameTable :=
  { t with aliasNames := t.aliasNames.erase aliasName }

def addUniqueName (t : NameTable) (endpoint : Endpoint) : NameTable × List Notification :=
  let entry : UniqueNameEntry := ⟨endpoint, endpoint.getNameTransfer⟩
  ({ t with uniqueNames := t.uniqueNames.insert endpoint.uniqueName ⟨entry, rfl⟩ },
   [⟨.unique endpoint.uniqueName, none, .allNames,
     some endpoint.uniqueName, endpoint.getNameTransfer⟩])

/-- The name and name transfer of the remote owner a name falls back to. -/
def virtualOwner (t : NameTable) (name : WellKnownName) : Option UniqueName × NameTransfer :=
  match t.virtualAliasNames.lookup name with
  | some entry => (some entry.endpoint.uniqueName, entry.nameTransfer)
  | none => (none, .allNames)

/-- `AddAlias`. An empty queue is excluded by an assertion. -/
def addAlias (t : NameTable) (aliasName : WellKnownName) (uniqueName : UniqueName)
    (flags : BitVec 32) : QStatus × Option RequestReply × NameTable × List Notification :=
  if t.uniqueNames.lookup uniqueName = none then (.busNoEndpoint, none, t, [])
  else
    let entry : NameQueueEntry := ⟨uniqueName, flags⟩
    match t.aliasNames.lookup aliasName with
    | some [] => (.fail, none, t, [])
    | some (primary :: waiting) =>
      if primary.endpointName = uniqueName then (.ok, some .alreadyOwner, t, [])
      else if primary.flags &&& allowReplacement ≠ 0#32 ∧ flags &&& replaceExisting ≠ 0#32 then
        (.ok, some .primaryOwner,
         t.setQueue aliasName (entry :: primary :: waiting),
         [⟨.wellKnown aliasName, some primary.endpointName, .allNames,
           some uniqueName, .allNames⟩])
      else if flags &&& doNotQueue ≠ 0#32 then (.ok, some .exists, t, [])
      else
        (.ok, some .inQueue,
         t.setQueue aliasName (primary :: waiting ++ [entry]), [])
    | none =>
      let (origOwner, origOwnerNameTransfer) := t.virtualOwner aliasName
      (.ok, some .primaryOwner,
       t.setQueue aliasName [entry],
       [⟨.wellKnown aliasName, origOwner, origOwnerNameTransfer,
         some uniqueName, .allNames⟩])

/-- The waiter that `RemoveAlias` makes the owner: the second in the queue, when
its endpoint is valid. -/
def nextOwner (t : NameTable) : List NameQueueEntry → Option UniqueName
  | _ :: next :: _ => if t.isValid next.endpointName then some next.endpointName else none
  | _ => none

def removeAlias (t : NameTable) (aliasName : WellKnownName) (ownerName : UniqueName) :
    ReleaseReply × NameTable × List Notification :=
  match t.aliasNames.lookup aliasName with
  | none => (.nonExistent, t, [])
  | some queue =>
    if queue.head?.map (·.endpointName) = some ownerName then
      match t.nextOwner queue with
      | some next =>
        (.released, t.setQueue aliasName queue.tail,
         [⟨.wellKnown aliasName, some ownerName, .allNames, some next, .allNames⟩])
      | none =>
        let (newOwner, newOwnerNameTransfer) := t.virtualOwner aliasName
        (.released, t.eraseQueue aliasName,
         [⟨.wellKnown aliasName, some ownerName, .allNames,
           newOwner, newOwnerNameTransfer⟩])
    else (.notOwner, t, [])

/-- One walk of `RemoveUniqueName` over the alias map: in each queue the first
entry of the name is erased, up to a queue whose owner it is. -/
def dropWaiting (uniqueName : UniqueName) :
    List (Σ _ : WellKnownName, List NameQueueEntry) →
      List (Σ _ : WellKnownName, List NameQueueEntry) × Option WellKnownName
  | [] => ([], none)
  | ⟨aliasName, queue⟩ :: rest =>
    if queue.head?.map (·.endpointName) = some uniqueName then
      (⟨aliasName, queue⟩ :: rest, some aliasName)
    else
      let (rest, owned) := dropWaiting uniqueName rest
      (⟨aliasName, queue.eraseP (·.endpointName = uniqueName)⟩ :: rest, owned)

theorem dropWaiting_keys (uniqueName : UniqueName)
    (entries : List (Σ _ : WellKnownName, List NameQueueEntry)) :
    (dropWaiting uniqueName entries).1.keys = entries.keys := by
  induction entries with
  | nil => rfl
  | cons entry rest ih =>
    simp only [dropWaiting]
    split
    · rfl
    · simpa using ih

/-- The walk on the table, with the alias at which it stopped. -/
def dropPass (t : NameTable) (uniqueName : UniqueName) : NameTable × Option WellKnownName :=
  ({ t with aliasNames :=
      ⟨(dropWaiting uniqueName t.aliasNames.entries).1, by
        rw [List.NodupKeys, dropWaiting_keys]
        exact t.aliasNames.nodupKeys⟩ },
   (dropWaiting uniqueName t.aliasNames.entries).2)

/-- The loop of `RemoveUniqueName`: each alias the name owns is released, and
the walk starts over. `fuel` bounds the number of releases. -/
def releaseNames (uniqueName : UniqueName) : Nat → NameTable → NameTable × List Notification
  | 0, t => ((t.dropPass uniqueName).1, [])
  | fuel + 1, t =>
    match t.dropPass uniqueName with
    | (t, none) => (t, [])
    | (t, some aliasName) =>
      let (_, t, first) := t.removeAlias aliasName uniqueName
      let (t, rest) := releaseNames uniqueName fuel t
      (t, first ++ rest)

/-- The number of queue entries, over all aliases. -/
def queued (t : NameTable) : Nat :=
  (t.aliasNames.entries.map (·.2.length)).sum

def removeUniqueName (t : NameTable) (uniqueName : UniqueName) :
    NameTable × List Notification :=
  match t.uniqueNames.lookup uniqueName with
  | none => (t, [])
  | some entry =>
    let (t, released) := releaseNames uniqueName t.queued t
    ({ t with uniqueNames := t.uniqueNames.erase uniqueName },
     released ++
       [⟨.unique uniqueName, some uniqueName, entry.1.nameTransfer, none, .allNames⟩])

/-- The map `SetVirtualAlias` leaves, whether it made a change, and the name
transfer of the new owner. -/
def virtualUpdate (t : NameTable) (aliasName : WellKnownName) :
    Option VirtualEndpoint →
      AList (fun _ : WellKnownName => VirtualAliasEntry) × Bool × NameTransfer
  | some endpoint =>
    let nameTransfer := endpoint.getNameTransfer
    let same := (t.virtualAliasNames.lookup aliasName).any fun old => endpoint.iden old.endpoint
    (t.virtualAliasNames.insert aliasName ⟨endpoint, nameTransfer⟩,
     !same || (t.virtualOwner aliasName).2 ≠ nameTransfer, nameTransfer)
  | none => (t.virtualAliasNames.erase aliasName, true, .allNames)

/-- A virtual alias changes hands only within one remote daemon. -/
def mayChange (t : NameTable) (aliasName : WellKnownName) (requester : UniqueName) : Bool :=
  (t.virtualOwner aliasName).1.all fun old =>
    '.' ∈ old.text ∧ old.daemon = requester.daemon

/-- `SetVirtualAlias`; the new owner is none for a null pointer. -/
def setVirtualAlias (t : NameTable) (aliasName : WellKnownName)
    (newOwner : Option VirtualEndpoint) (requester : UniqueName) :
    Bool × NameTable × List Notification :=
  if t.mayChange aliasName requester = false then (false, t, [])
  else
    let (oldName, oldOwnerNameTransfer) := t.virtualOwner aliasName
    let maskingLocalName := (t.aliasNames.lookup aliasName).isSome
    let (virtualAliasNames, madeChange, newOwnerNameTransfer) := t.virtualUpdate aliasName newOwner
    (madeChange, { t with virtualAliasNames := virtualAliasNames },
     if madeChange && !maskingLocalName then
       [⟨.wellKnown aliasName, oldName, oldOwnerNameTransfer,
         newOwner.map VirtualEndpoint.uniqueName, newOwnerNameTransfer⟩]
     else [])

/-- Whether a virtual alias belongs to the endpoint a name was resolved to. -/
def ownedBy (endpoint : Option Endpoint) (entry : VirtualAliasEntry) : Bool :=
  match endpoint with
  | some (.virtualEndpoint owner) => entry.endpoint.iden owner
  | _ => false

/-- `RemoveVirtualAliases`. A removal is announced unless a local owner masks
it. -/
def removeVirtualAliases (t : NameTable) (epName : UniqueName) :
    NameTable × List Notification :=
  let endpoint := t.findUnique epName
  let removed := t.virtualAliasNames.entries.filter (ownedBy endpoint ·.2)
  ({ t with virtualAliasNames :=
      ⟨t.virtualAliasNames.entries.filter (!ownedBy endpoint ·.2),
       t.virtualAliasNames.nodupKeys.sublist List.filter_sublist⟩ },
   removed.filterMap fun entry =>
     if (t.aliasNames.lookup entry.1).isSome then none
     else some ⟨.wellKnown entry.1, some epName, entry.2.nameTransfer, none, .allNames⟩)

/-- A registered local endpoint goes down before it is removed. -/
def invalidate (t : NameTable) (name : UniqueName) : NameTable :=
  match t.uniqueNames.lookup name with
  | none => t
  | some entry =>
    let down : UniqueNameEntry := { entry.1 with endpoint := entry.1.endpoint.invalidate }
    have hname : down.endpoint.uniqueName = name :=
      entry.1.endpoint.invalidate_uniqueName.trans entry.2
    { t with uniqueNames := t.uniqueNames.insert name ⟨down, hname⟩ }

theorem removeAlias_cases (t : NameTable) (aliasName : WellKnownName) (ownerName : UniqueName) :
    (t.removeAlias aliasName ownerName).2 = (t, []) ∨
      (∃ primary next rest,
        t.aliasNames.lookup aliasName = some (primary :: next :: rest) ∧
        primary.endpointName = ownerName ∧ t.isValid next.endpointName = true ∧
        (t.removeAlias aliasName ownerName).2 =
          (t.setQueue aliasName (next :: rest),
           [⟨.wellKnown aliasName, some ownerName, .allNames,
             some next.endpointName, .allNames⟩])) ∨
      (∃ primary rest,
        t.aliasNames.lookup aliasName = some (primary :: rest) ∧
        primary.endpointName = ownerName ∧ t.nextOwner (primary :: rest) = none ∧
        (t.removeAlias aliasName ownerName).2 =
          (t.eraseQueue aliasName,
           [⟨.wellKnown aliasName, some ownerName, .allNames,
             (t.virtualOwner aliasName).1, (t.virtualOwner aliasName).2⟩])) := by
  cases hlookup : t.aliasNames.lookup aliasName with
  | none => exact Or.inl (by simp [removeAlias, hlookup])
  | some queue =>
    cases queue with
    | nil => exact Or.inl (by simp [removeAlias, hlookup])
    | cons primary rest =>
      by_cases howner : primary.endpointName = ownerName
      · right
        cases hnext : t.nextOwner (primary :: rest) with
        | none =>
          right
          refine ⟨primary, rest, rfl, howner, hnext, ?_⟩
          simp [removeAlias, hlookup, howner, hnext]
        | some name =>
          left
          cases rest with
          | nil => simp [nextOwner] at hnext
          | cons next rest =>
            obtain ⟨hvalid, rfl⟩ := by simpa [nextOwner] using hnext
            refine ⟨primary, next, rest, rfl, howner, hvalid, ?_⟩
            simp [removeAlias, hlookup, howner, hnext]
      · exact Or.inl (by simp [removeAlias, hlookup, howner])

theorem addAlias_cases (t : NameTable) (aliasName : WellKnownName) (uniqueName : UniqueName)
    (flags : BitVec 32) :
    (t.addAlias aliasName uniqueName flags).2.2 = (t, []) ∨
      (t.uniqueNames.lookup uniqueName ≠ none ∧
        ((∃ primary waiting,
            t.aliasNames.lookup aliasName = some (primary :: waiting) ∧
            primary.endpointName ≠ uniqueName ∧
            primary.flags &&& allowReplacement ≠ 0#32 ∧ flags &&& replaceExisting ≠ 0#32 ∧
            (t.addAlias aliasName uniqueName flags).2.2 =
              (t.setQueue aliasName (⟨uniqueName, flags⟩ :: primary :: waiting),
               [⟨.wellKnown aliasName, some primary.endpointName, .allNames,
                 some uniqueName, .allNames⟩])) ∨
          (∃ primary waiting,
            t.aliasNames.lookup aliasName = some (primary :: waiting) ∧
            primary.endpointName ≠ uniqueName ∧ flags &&& doNotQueue = 0#32 ∧
            (t.addAlias aliasName uniqueName flags).2.2 =
              (t.setQueue aliasName (primary :: waiting ++ [⟨uniqueName, flags⟩]), [])) ∨
          (t.aliasNames.lookup aliasName = none ∧
            (t.addAlias aliasName uniqueName flags).2.2 =
              (t.setQueue aliasName [⟨uniqueName, flags⟩],
               [⟨.wellKnown aliasName, (t.virtualOwner aliasName).1,
                 (t.virtualOwner aliasName).2, some uniqueName, .allNames⟩])))) := by
  by_cases hregistered : t.uniqueNames.lookup uniqueName = none
  · exact Or.inl (by simp [addAlias, hregistered])
  · cases hlookup : t.aliasNames.lookup aliasName with
    | none =>
      right
      exact ⟨hregistered, Or.inr (Or.inr ⟨rfl, by simp [addAlias, hregistered, hlookup]⟩)⟩
    | some queue =>
      cases queue with
      | nil => exact Or.inl (by simp [addAlias, hregistered, hlookup])
      | cons primary waiting =>
        by_cases howner : primary.endpointName = uniqueName
        · exact Or.inl (by simp [addAlias, hregistered, hlookup, howner])
        · by_cases hreplace :
              primary.flags &&& allowReplacement ≠ 0#32 ∧ flags &&& replaceExisting ≠ 0#32
          · right
            refine ⟨hregistered, Or.inl
              ⟨primary, waiting, rfl, howner, hreplace.1, hreplace.2, ?_⟩⟩
            simp [addAlias, hregistered, hlookup, howner, if_pos hreplace]
          · by_cases hqueue : flags &&& doNotQueue = 0#32
            · right
              refine ⟨hregistered, Or.inr (Or.inl
                ⟨primary, waiting, rfl, howner, hqueue, ?_⟩)⟩
              simp [addAlias, hregistered, hlookup, howner, if_neg hreplace, hqueue]
            · left
              simp [addAlias, hregistered, hlookup, howner, if_neg hreplace, hqueue]

end NameTable

/-- What can happen to the table; the last is not one of its operations. -/
inductive Op where
  | addUniqueName (endpoint : Endpoint)
  | removeUniqueName (uniqueName : UniqueName)
  | addAlias (aliasName : WellKnownName) (uniqueName : UniqueName) (flags : BitVec 32)
  | removeAlias (aliasName : WellKnownName) (ownerName : UniqueName)
  | setVirtualAlias (aliasName : WellKnownName) (newOwner : Option VirtualEndpoint)
      (requester : UniqueName)
  | removeVirtualAliases (epName : UniqueName)
  | invalidate (name : UniqueName)
  deriving DecidableEq

def NameTable.apply (t : NameTable) : Op → NameTable × List Notification
  | .addUniqueName endpoint => t.addUniqueName endpoint
  | .removeUniqueName uniqueName => t.removeUniqueName uniqueName
  | .addAlias aliasName uniqueName flags => (t.addAlias aliasName uniqueName flags).2.2
  | .removeAlias aliasName ownerName => (t.removeAlias aliasName ownerName).2
  | .setVirtualAlias aliasName newOwner requester =>
    (t.setVirtualAlias aliasName newOwner requester).2
  | .removeVirtualAliases epName => t.removeVirtualAliases epName
  | .invalidate name => (t.invalidate name, [])

/-- A table together with everything it announced. -/
abbrev History := NameTable × List Notification

def step (s : History) (op : Op) : History :=
  ((s.1.apply op).1, s.2 ++ (s.1.apply op).2)

end AllJoyn.Names
