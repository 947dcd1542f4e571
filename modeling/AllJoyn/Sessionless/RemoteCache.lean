import AllJoyn.Lib.Run
import AllJoyn.Lib.SeqNum

/-!
Which sessionless signals of a remote routing node are still to be fetched
(`SessionlessObj.cc`). The node's advertisements say for which interfaces it has
signals and up to which change id, the local match rules are numbered in the
order in which they were added, and two watermarks record what was fetched: the
change id received and the rule applied last. A request covers a range of
change ids for a range of rules.
-/

namespace AllJoyn.Sessionless

open Lib

abbrev Id := BitVec 32

/-- `IN_WINDOW` on `uint32_t`. -/
def inWindow (beg size p : Id) : Bool := SeqNum.inRange beg size p

/-- Half of the largest `uint32_t`. -/
def halfWindow : Id := 0x7FFFFFFF

/-- `IS_GREATER` on `uint32_t`. -/
def isGreater (a b : Id) : Bool := inWindow b halfWindow a && a != b

inductive MessageType where
  | invalid
  | methodCall
  | methodRet
  | error
  | signal
  deriving DecidableEq, Repr

/-- A match rule, without its flag for sessionless signals, which is set in
every rule here. -/
structure Rule where
  type : MessageType
  sender : List Char
  iface : List Char
  member : List Char
  path : List Char
  destination : List Char
  implements : List (List Char)
  args : List (Nat × List Char)
  deriving DecidableEq, Repr

structure TimestampedRule extends Rule where
  id : Id
  deriving DecidableEq, Repr

/-- `TimestampedRules`: the rules by the name of their endpoint, in the order of
insertion. -/
abbrev Rules := List (List Char × TimestampedRule)

inductive WorkState where
  | idle
  | inProgress
  deriving DecidableEq, Repr

/-- A range of change ids, for the rules of a range of ids. -/
structure Request where
  fromChangeId : Id
  toChangeId : Id
  fromRulesId : Id
  toRulesId : Id
  deriving DecidableEq, Repr

/-- `RemoteCacheWork`: what is known of a remote cache, and the request that is
being made. -/
structure RemoteCache where
  version : Nat
  ifaces : List (List Char)
  changeId : Id
  haveReceived : Bool
  receivedChangeId : Id
  appliedRulesId : Id
  work : Request
  state : WorkState
  deriving DecidableEq, Repr

/-- The cache of a node that was not known before. -/
def RemoteCache.new (version : Nat) (iface : List Char) (changeId : Id) : RemoteCache :=
  { version := version
    ifaces := [iface]
    changeId := changeId
    haveReceived := false
    receivedChangeId := 0xFFFFFFFF
    appliedRulesId := 0xFFFFFFFF
    work := ⟨0, 0, 0, 0⟩
    state := .idle }

/-- `IsMatch`: some rule of the range is for an interface of the cache. -/
def isMatch (cache : RemoteCache) (rules : Rules) (fromRulesId toRulesId : Id) : Bool :=
  cache.version == 0 || rules.any fun entry =>
    inWindow fromRulesId (toRulesId - fromRulesId) entry.2.id && cache.ifaces.contains entry.2.iface

inductive WorkType where
  | none
  | applyNewRules
  | requestNewSignals
  deriving DecidableEq, Repr

def pendingWork (cache : RemoteCache) (rules : Rules) (nextRulesId : Id) : WorkType :=
  if cache.haveReceived && isGreater (nextRulesId - 1) cache.appliedRulesId &&
      isMatch cache rules (cache.appliedRulesId + 1) nextRulesId then .applyNewRules
  else if isGreater cache.changeId cache.receivedChangeId &&
      isMatch cache rules (cache.appliedRulesId - halfWindow) nextRulesId then .requestNewSignals
  else .none

/-- The part of `SessionlessObj` that one remote cache depends on. -/
structure Obj where
  rules : Rules
  nextRulesId : Id
  cache : Option RemoteCache
  deriving DecidableEq, Repr

/-- `AddRuleWork::Run`. A rule that the endpoint has already keeps its id. -/
def Obj.addRule (obj : Obj) (epName : List Char) (rule : Rule) : Obj :=
  match obj.rules.find? fun entry => entry.1 == epName && entry.2.toRule == rule with
  | some entry => { obj with rules := obj.rules ++ [(epName, ⟨rule, entry.2.id⟩)] }
  | none =>
    { obj with
      rules := obj.rules ++ [(epName, ⟨rule, obj.nextRulesId⟩)]
      nextRulesId := obj.nextRulesId + 1 }

/-- The update of a known cache by an advertisement. -/
def RemoteCache.found (cache : RemoteCache) (iface : List Char) (changeId : Id) : RemoteCache :=
  { cache with
    ifaces := if cache.ifaces.contains iface then cache.ifaces else cache.ifaces ++ [iface]
    changeId := if isGreater changeId cache.changeId then changeId else cache.changeId }

/-- `FoundAdvertisedNameHandler`, for the parts of the name. -/
def Obj.found (obj : Obj) (version : Nat) (iface : List Char) (changeId : Id) : Obj :=
  match obj.cache with
  | some cache => { obj with cache := some (cache.found iface changeId) }
  | none => { obj with cache := some (.new version iface changeId) }

/-- The request for the pending work. -/
def RemoteCache.request (cache : RemoteCache) (nextRulesId : Id) (newRules : Bool) : Request :=
  if newRules then
    { fromChangeId := cache.receivedChangeId - halfWindow
      toChangeId := cache.receivedChangeId + 1
      fromRulesId := cache.appliedRulesId + 1
      toRulesId := nextRulesId }
  else
    { fromChangeId := cache.receivedChangeId + 1
      toChangeId := cache.changeId + 1
      fromRulesId := cache.appliedRulesId - halfWindow
      toRulesId := nextRulesId }

/-- `AlarmTriggered`, when the time for the next session has come. -/
def Obj.alarmTriggered (obj : Obj) : Obj :=
  match obj.cache with
  | some cache =>
    let start (newRules : Bool) : Obj :=
      { obj with cache := some { cache with
          state := .inProgress
          work := cache.request obj.nextRulesId newRules } }
    if cache.state = .idle then
      match pendingWork cache obj.rules obj.nextRulesId with
      | .none => obj
      | .applyNewRules => start true
      | .requestNewSignals => start false
    else obj
  | none => obj

/-- `DoSessionLost` after all the signals have been sent. -/
def RemoteCache.completed (cache : RemoteCache) : RemoteCache :=
  let received := isGreater (cache.work.toChangeId - 1) cache.receivedChangeId
  { cache with
    state := .idle
    appliedRulesId := if isGreater (cache.work.toRulesId - 1) cache.appliedRulesId
      then cache.work.toRulesId - 1 else cache.appliedRulesId
    receivedChangeId := if received then cache.work.toChangeId - 1 else cache.receivedChangeId
    haveReceived := cache.haveReceived || received }

/-- What happens around one remote cache. -/
inductive Event where
  | found (iface : List Char) (changeId : Id)
  | addRule (epName : List Char) (rule : Rule)
  | alarmTriggered
  | sessionCompleted
  /-- The session could not be joined, or was lost; the cache is forgotten when
  the time for retries is over. -/
  | sessionFailed (exhausted : Bool)
  /-- The time for retries is over when work is scheduled. -/
  | retriesExhausted

/-- The object, with the requests that were completed. -/
abbrev History := Obj × List Request

/-- One event, for a cache whose names say that it is of version `version`. -/
def step (version : Nat) (s : History) (event : Event) : History :=
  match event with
  | .found iface changeId => (s.1.found version iface changeId, s.2)
  | .addRule epName rule => (s.1.addRule epName rule, s.2)
  | .alarmTriggered => (s.1.alarmTriggered, s.2)
  | .sessionCompleted =>
    match s.1.cache with
    | some cache =>
      if cache.state = .inProgress then
        ({ s.1 with cache := some cache.completed }, cache.work :: s.2)
      else s
    | none => s
  | .sessionFailed exhausted =>
    match s.1.cache with
    | some cache =>
      if cache.state = .inProgress then
        ({ s.1 with cache := if exhausted then none else some { cache with state := .idle } }, s.2)
      else s
    | none => s
  | .retriesExhausted =>
    match s.1.cache with
    | some cache =>
      if cache.state = .idle ∧ pendingWork cache s.1.rules s.1.nextRulesId ≠ .none then
        ({ s.1 with cache := none }, s.2)
      else s
    | none => s

/-- No rules, and no remote cache. -/
def initial : History := (⟨[], 0, none⟩, [])

/-- The request asks for the signals of a change id that match a rule. -/
def Request.covers (request : Request) (rulesId changeId : Id) : Bool :=
  inWindow request.fromRulesId (request.toRulesId - request.fromRulesId) rulesId &&
    inWindow request.fromChangeId (request.toChangeId - request.fromChangeId) changeId

/-- Nothing is pending although a rule for an interface of the cache and an
advertised change id were not asked for together. -/
def Missed (s : History) : Prop :=
  ∃ cache, s.1.cache = some cache ∧
    pendingWork cache s.1.rules s.1.nextRulesId = .none ∧
    ∃ entry ∈ s.1.rules, entry.2.id < s.1.nextRulesId ∧ entry.2.iface ∈ cache.ifaces ∧
      ∃ changeId ≤ cache.changeId, ∀ request ∈ s.2, request.covers entry.2.id changeId = false

end AllJoyn.Sessionless
