import AllJoyn.Lib.Run
import AllJoyn.Names.Release

/-!
The owner queues of the well-known names. In a well-kept table every queue is
nonempty, holds no name twice and only names that are registered; then a name
that its owner gives up passes to the first waiter, and is dropped only when
nobody waits.
-/

namespace AllJoyn.Names

variable {t start : NameTable} {aliasName : WellKnownName} {primary : NameQueueEntry}
  {uniqueName : UniqueName}

/-- The endpoint names of a queue, owner first. -/
def names (queue : List NameQueueEntry) : List UniqueName :=
  queue.map (·.endpointName)

@[simp]
theorem names_cons (entry : NameQueueEntry) (queue : List NameQueueEntry) :
    names (entry :: queue) = entry.endpointName :: names queue := rfl

theorem names_eraseP (uniqueName : UniqueName) (queue : List NameQueueEntry) :
    names (queue.eraseP (·.endpointName = uniqueName)) = (names queue).erase uniqueName := by
  induction queue with
  | nil => rfl
  | cons entry rest ih =>
    by_cases hname : entry.endpointName = uniqueName
    · simp [hname]
    · simp [hname, ih]

private theorem filter_erase_self (uniqueName : UniqueName) (queue : List UniqueName) :
    (queue.erase uniqueName).filter (· ≠ uniqueName) = queue.filter (· ≠ uniqueName) := by
  induction queue with
  | nil => rfl
  | cons name rest ih =>
    by_cases hname : name = uniqueName
    · simp [hname]
    · simpa [hname] using ih

namespace NameTable

/-- The local owner of a name followed by those who wait for it. -/
def queueOf (t : NameTable) (aliasName : WellKnownName) : List UniqueName :=
  names ((t.aliasNames.lookup aliasName).getD [])

structure QueueOk (registry : UniqueNameMap) (queue : List NameQueueEntry) : Prop where
  nonempty : queue ≠ []
  nodup : (names queue).Nodup
  registered : ∀ name ∈ names queue, name ∈ registry

def QueuesOk (t : NameTable) : Prop :=
  t.EveryQueue (QueueOk t.uniqueNames)

/-- No registered endpoint has gone down. -/
def AllValid (t : NameTable) : Prop :=
  ∀ name ∈ t.uniqueNames, t.isValid name = true

/-- The request would put a name into a queue in which it already waits. -/
def requeues (t : NameTable) (aliasName : WellKnownName) (uniqueName : UniqueName)
    (flags : BitVec 32) : Bool :=
  match t.aliasNames.lookup aliasName with
  | some (primary :: waiting) =>
    primary.endpointName ≠ uniqueName ∧ uniqueName ∈ names waiting ∧
      (flags &&& doNotQueue = 0#32 ∨
        (primary.flags &&& allowReplacement ≠ 0#32 ∧ flags &&& replaceExisting ≠ 0#32))
  | _ => false

/-- Nobody who waits in a queue asks again for a place in it, and names are
released only while every registered endpoint is up. -/
def Orderly (t : NameTable) : Op → Prop
  | .addAlias aliasName uniqueName flags => t.requeues aliasName uniqueName flags = false
  | .removeAlias _ _ => t.AllValid
  | .removeUniqueName _ => t.AllValid
  | _ => True

instance (t : NameTable) : Decidable t.AllValid :=
  inferInstanceAs (Decidable (∀ name ∈ t.uniqueNames.keys, t.isValid name = true))

instance (t : NameTable) (op : Op) : Decidable (t.Orderly op) :=
  match op with
  | .addAlias aliasName uniqueName flags =>
    inferInstanceAs (Decidable (t.requeues aliasName uniqueName flags = false))
  | .removeAlias _ _ => inferInstanceAs (Decidable t.AllValid)
  | .removeUniqueName _ => inferInstanceAs (Decidable t.AllValid)
  | .addUniqueName _ => isTrue trivial
  | .setVirtualAlias _ _ _ => isTrue trivial
  | .removeVirtualAliases _ => isTrue trivial
  | .invalidate _ => isTrue trivial

variable {registry : UniqueNameMap} {queue : List NameQueueEntry}

theorem QueueOk.congr {next : UniqueNameMap} (h : QueueOk registry queue)
    (hnames : ∀ name ∈ registry, name ∈ next) : QueueOk next queue :=
  ⟨h.nonempty, h.nodup, fun name hmem => hnames name (h.registered name hmem)⟩

theorem hereditary_queueOk (registry : UniqueNameMap) : Hereditary (QueueOk registry) := by
  intro queue shorter h hsub hne
  have hnames : (names shorter).Sublist (names queue) := hsub.map _
  exact ⟨hne, h.nodup.sublist hnames, fun name hmem => h.registered name (hnames.subset hmem)⟩

theorem QueuesOk.dropPass (h : t.QueuesOk) (uniqueName : UniqueName) :
    (t.dropPass uniqueName).1.QueuesOk :=
  EveryQueue.dropPass h (hereditary_queueOk _) uniqueName

theorem QueuesOk.removeAlias (h : t.QueuesOk) (aliasName : WellKnownName) (ownerName : UniqueName) :
    (t.removeAlias aliasName ownerName).2.1.QueuesOk := by
  unfold QueuesOk
  rw [(t.removeAlias_frame aliasName ownerName).1]
  exact EveryQueue.removeAlias h (hereditary_queueOk _) aliasName ownerName

section Owner

variable (hok : t.QueuesOk) (hvalid : t.AllValid) {rest : List NameQueueEntry}
  (hlookup : t.aliasNames.lookup aliasName = some (primary :: rest))

include hok hvalid hlookup

/-- In a well-kept table whose endpoints are up the next in the queue takes over,
and the queue goes away with its last entry. -/
theorem removeAlias_owner :
    (t.removeAlias aliasName primary.endpointName).2.1 =
      if rest = [] then t.eraseQueue aliasName else t.setQueue aliasName rest := by
  cases rest with
  | nil => simp [removeAlias, hlookup, nextOwner]
  | cons next rest =>
    have hregistered := (hok aliasName _ hlookup).registered next.endpointName (by simp)
    have hnext := hvalid next.endpointName hregistered
    simp [removeAlias, hlookup, nextOwner, hnext]

theorem queueOf_removeAlias (other : WellKnownName) :
    (t.removeAlias aliasName primary.endpointName).2.1.queueOf other =
      if other = aliasName then names rest else t.queueOf other := by
  rw [removeAlias_owner hok hvalid hlookup]
  by_cases hrest : rest = []
  · subst hrest
    simp only [if_true, queueOf, lookup_eraseQueue]
    split <;> rfl
  · simp only [if_neg hrest, queueOf, lookup_setQueue]
    split <;> rfl

end Owner

theorem queueOf_dropPass_filter (t : NameTable) (uniqueName : UniqueName)
    (aliasName : WellKnownName) :
    ((t.dropPass uniqueName).1.queueOf aliasName).filter (· ≠ uniqueName) =
      (t.queueOf aliasName).filter (· ≠ uniqueName) := by
  unfold queueOf
  rcases t.lookup_dropPass uniqueName aliasName with
    ⟨hafter, hbefore⟩ | ⟨before, after, hbefore, hafter, hdropped, -⟩
  · rw [hafter, hbefore]
  · rw [hafter, hbefore]
    rcases hdropped with rfl | ⟨-, rfl⟩
    · rfl
    · simp only [Option.getD_some, names_eraseP]
      exact filter_erase_self uniqueName (names before)

/-- What the loop of `RemoveUniqueName` keeps: the queues lose nobody but the
name that leaves. -/
structure Leaving (uniqueName : UniqueName) (start t : NameTable) : Prop where
  queues : t.QueuesOk
  uniqueNames : t.uniqueNames = start.uniqueNames
  others : ∀ aliasName, (t.queueOf aliasName).filter (· ≠ uniqueName) =
    (start.queueOf aliasName).filter (· ≠ uniqueName)

theorem AllValid.congr (h : start.AllValid) (hnames : t.uniqueNames = start.uniqueNames) :
    t.AllValid := by
  intro name hmem
  simp only [isValid, findUnique, hnames] at hmem ⊢
  exact h name hmem

theorem Leaving.dropPass (h : Leaving uniqueName start t) :
    Leaving uniqueName start (t.dropPass uniqueName).1 :=
  ⟨h.queues.dropPass uniqueName, h.uniqueNames,
   fun aliasName => (t.queueOf_dropPass_filter uniqueName aliasName).trans (h.others aliasName)⟩

theorem Leaving.removeAlias (h : Leaving uniqueName start t) (hvalid : start.AllValid)
    (aliasName : WellKnownName) :
    Leaving uniqueName start (t.removeAlias aliasName uniqueName).2.1 := by
  refine ⟨h.queues.removeAlias aliasName uniqueName,
    (t.removeAlias_frame aliasName uniqueName).1.trans h.uniqueNames, fun other => ?_⟩
  rcases t.removeAlias_cases aliasName uniqueName with
    hsame | ⟨primary, next, rest, hlookup, rfl, -, -⟩ | ⟨primary, rest, hlookup, rfl, -, -⟩
  · rw [hsame]
    exact h.others other
  all_goals
    rw [queueOf_removeAlias h.queues (hvalid.congr h.uniqueNames) hlookup, ← h.others other]
    split
    · rename_i hother
      subst hother
      simp [queueOf, hlookup]
    · rfl

theorem leaving_releaseNames (hok : start.QueuesOk) (hvalid : start.AllValid)
    (uniqueName : UniqueName) (fuel : Nat) :
    Leaving uniqueName start (releaseNames uniqueName fuel start).1 := by
  have hstart : Leaving uniqueName start start := ⟨hok, rfl, fun _ => rfl⟩
  exact releaseNames_invariant uniqueName (fun s => Leaving uniqueName start s.1)
    (fun _ _ h => h.dropPass) (fun _ _ aliasName h => h.removeAlias hvalid aliasName)
    fuel start [] hstart

/-- With a step for each queue entry the loop clears the name from every queue. -/
theorem not_mem_queueOf_releaseNames (uniqueName : UniqueName) (fuel : Nat) (t : NameTable)
    (hok : t.QueuesOk) (hfuel : t.queued < fuel) (aliasName : WellKnownName) :
    uniqueName ∉ (releaseNames uniqueName fuel t).1.queueOf aliasName := by
  induction fuel generalizing t with
  | zero => omega
  | succ fuel ih =>
    cases hpass : t.dropPass uniqueName with
    | mk walked owned =>
      cases owned with
      | none =>
        simp only [releaseNames, hpass]
        have hwalk := t.lookup_dropPass uniqueName aliasName
        simp only [hpass, true_implies] at hwalk
        rcases hwalk with ⟨hnone, -⟩ | ⟨before, after, hbefore, hafter, -, -, herased⟩
        · simp [queueOf, hnone, names]
        · simp only [queueOf, hafter, herased, Option.getD_some, names_eraseP]
          exact (hok aliasName before hbefore).nodup.not_mem_erase
      | some stopped =>
        obtain ⟨primary, rest, hlookup, rfl⟩ := t.dropPass_owned uniqueName stopped
          (by rw [hpass])
        have hle := t.queued_dropPass primary.endpointName
        have hless := queued_removeAlias _ stopped primary rest hlookup
        have hnext := (hok.dropPass primary.endpointName).removeAlias stopped
          primary.endpointName
        simp only [hpass] at hle hless hnext
        simp only [releaseNames, hpass]
        exact ih _ hnext (Nat.lt_of_lt_of_le hless (by omega))

/-- In a well-kept table whose endpoints are up a name that leaves the bus is
taken out of every queue and of nothing else. -/
theorem removeUniqueName_spec (hok : t.QueuesOk) (hvalid : t.AllValid)
    (hmem : uniqueName ∈ t.uniqueNames) :
    (t.removeUniqueName uniqueName).1.QueuesOk ∧
      ∀ aliasName, (t.removeUniqueName uniqueName).1.queueOf aliasName =
        (t.queueOf aliasName).filter (· ≠ uniqueName) := by
  obtain ⟨entry, hentry⟩ := Option.isSome_iff_exists.mp (AList.lookup_isSome.mpr hmem)
  have hleft := leaving_releaseNames hok hvalid uniqueName t.queued
  have hgone : ∀ aliasName,
      uniqueName ∉ (releaseNames uniqueName t.queued t).1.queueOf aliasName := by
    intro aliasName
    rw [← releaseNames_fuel uniqueName t.queued t (Nat.le_refl _)]
    exact not_mem_queueOf_releaseNames uniqueName _ t hok (Nat.lt_succ_self _) aliasName
  simp only [removeUniqueName, hentry]
  generalize (releaseNames uniqueName t.queued t).1 = left at hleft hgone
  constructor
  · intro aliasName queue hlookup
    have hqueue := hleft.queues aliasName queue hlookup
    refine ⟨hqueue.nonempty, hqueue.nodup, fun name hname => ?_⟩
    have hother : name ≠ uniqueName := by
      rintro rfl
      apply hgone aliasName
      have hfound : left.aliasNames.lookup aliasName = some queue := hlookup
      simpa [queueOf, hfound] using hname
    exact AList.mem_erase.mpr ⟨hother, hqueue.registered name hname⟩
  · intro aliasName
    rw [← hleft.others aliasName]
    symm
    apply List.filter_eq_self.mpr
    intro name hname
    have hother : name ≠ uniqueName := fun heq => hgone aliasName (heq ▸ hname)
    simpa using hother

/-- A request that does not requeue and is put into an existing queue comes from
someone who is not in it. -/
theorem fresh_of_requeues {flags : BitVec 32} (h : t.requeues aliasName uniqueName flags = false)
    {waiting : List NameQueueEntry}
    (hlookup : t.aliasNames.lookup aliasName = some (primary :: waiting))
    (hne : primary.endpointName ≠ uniqueName) (hput : flags &&& doNotQueue = 0#32 ∨
      (primary.flags &&& allowReplacement ≠ 0#32 ∧ flags &&& replaceExisting ≠ 0#32)) :
    uniqueName ∉ names (primary :: waiting) := by
  intro hin
  rcases List.mem_cons.mp hin with heq | hwaits
  · exact hne heq.symm
  · simp only [requeues, hlookup, decide_eq_false_iff_not] at h
    exact h ⟨hne, hwaits, hput⟩

theorem names_append (queue : List NameQueueEntry) (entry : NameQueueEntry) :
    names (queue ++ [entry]) = names queue ++ [entry.endpointName] := by
  simp [names]

theorem QueueOk.push {longer : List NameQueueEntry} (h : QueueOk registry queue)
    (hmember : uniqueName ∈ registry) (hfresh : uniqueName ∉ names queue)
    (hperm : (names longer).Perm (uniqueName :: names queue)) : QueueOk registry longer := by
  refine ⟨?_, hperm.nodup_iff.mpr (List.nodup_cons.mpr ⟨hfresh, h.nodup⟩), fun name hin => ?_⟩
  · rintro rfl
    simp [names] at hperm
  · rcases List.mem_cons.mp (hperm.mem_iff.mp hin) with rfl | hold
    · exact hmember
    · exact h.registered name hold

theorem QueuesOk.addAlias (h : t.QueuesOk) (aliasName : WellKnownName) (uniqueName : UniqueName)
    (flags : BitVec 32) (horderly : t.requeues aliasName uniqueName flags = false) :
    (t.addAlias aliasName uniqueName flags).2.2.1.QueuesOk := by
  rcases t.addAlias_cases aliasName uniqueName flags with
    hsame | ⟨hregistered, ⟨primary, waiting, hlookup, hne, hallow, hreplace, hresult⟩ |
      ⟨primary, waiting, hlookup, hne, hqueue, hresult⟩ | ⟨hlookup, hresult⟩⟩
  · rw [hsame]
    exact h
  all_goals
    have hmember : uniqueName ∈ t.uniqueNames :=
      AList.lookup_isSome.mp (Option.isSome_iff_ne_none.mpr hregistered)
    rw [hresult]
    apply EveryQueue.setQueue h
  · have hfresh := fresh_of_requeues horderly hlookup hne (Or.inr ⟨hallow, hreplace⟩)
    exact (h aliasName _ hlookup).push hmember hfresh (List.Perm.refl _)
  · have hfresh := fresh_of_requeues horderly hlookup hne (Or.inl hqueue)
    refine (h aliasName _ hlookup).push hmember hfresh ?_
    rw [names_append]
    exact List.perm_append_singleton ..
  · refine ⟨by simp, by simp [names], fun name hin => ?_⟩
    obtain rfl := List.mem_singleton.mp hin
    exact hmember

theorem QueuesOk.congr {next : NameTable} (h : t.QueuesOk)
    (haliases : next.aliasNames = t.aliasNames)
    (hnames : ∀ name ∈ t.uniqueNames, name ∈ next.uniqueNames) : next.QueuesOk := by
  intro aliasName queue hlookup
  rw [haliases] at hlookup
  exact (h aliasName queue hlookup).congr hnames

theorem setVirtualAlias_frame (t : NameTable) (aliasName : WellKnownName)
    (newOwner : Option VirtualEndpoint) (requester : UniqueName) :
    (t.setVirtualAlias aliasName newOwner requester).2.1.aliasNames = t.aliasNames ∧
      (t.setVirtualAlias aliasName newOwner requester).2.1.uniqueNames = t.uniqueNames := by
  unfold setVirtualAlias
  split <;> exact ⟨rfl, rfl⟩

theorem invalidate_frame (t : NameTable) (name : UniqueName) :
    (t.invalidate name).aliasNames = t.aliasNames ∧
      ∀ other ∈ t.uniqueNames, other ∈ (t.invalidate name).uniqueNames := by
  unfold invalidate
  split
  · exact ⟨rfl, fun _ hmem => hmem⟩
  · exact ⟨rfl, fun _ hmem => (AList.mem_insert _).mpr (Or.inr hmem)⟩

theorem QueuesOk.apply (h : t.QueuesOk) (op : Op) (horderly : t.Orderly op) :
    (t.apply op).1.QueuesOk := by
  cases op with
  | addUniqueName endpoint =>
    exact h.congr rfl fun _ hmem => (AList.mem_insert _).mpr (Or.inr hmem)
  | removeUniqueName uniqueName =>
    by_cases hmem : uniqueName ∈ t.uniqueNames
    · exact (removeUniqueName_spec h horderly hmem).1
    · have hnone := AList.lookup_eq_none.mpr hmem
      simpa [NameTable.apply, removeUniqueName, hnone] using h
  | addAlias aliasName uniqueName flags => exact h.addAlias aliasName uniqueName flags horderly
  | removeAlias aliasName ownerName => exact h.removeAlias aliasName ownerName
  | setVirtualAlias aliasName newOwner requester =>
    obtain ⟨haliases, hnames⟩ := t.setVirtualAlias_frame aliasName newOwner requester
    exact h.congr haliases fun _ hmem => hnames ▸ hmem
  | removeVirtualAliases epName => exact h.congr rfl fun _ hmem => hmem
  | invalidate name =>
    obtain ⟨haliases, hnames⟩ := t.invalidate_frame name
    exact h.congr haliases hnames

theorem lookup_eq_none_iff_queueOf (h : t.QueuesOk) (aliasName : WellKnownName) :
    t.aliasNames.lookup aliasName = none ↔ t.queueOf aliasName = [] := by
  cases hlookup : t.aliasNames.lookup aliasName with
  | none => simp [queueOf, hlookup, names]
  | some queue =>
    have hne := (h aliasName queue hlookup).nonempty
    simpa [queueOf, hlookup, names] using hne

theorem QueuesOk.removeAlias_passes (h : t.QueuesOk) (hvalid : t.AllValid) {owner : UniqueName}
    {waiting : List UniqueName} (hqueue : t.queueOf aliasName = owner :: waiting) :
    (t.removeAlias aliasName owner).2.1.queueOf aliasName = waiting := by
  cases hlookup : t.aliasNames.lookup aliasName with
  | none => simp [queueOf, hlookup, names] at hqueue
  | some queue =>
    cases queue with
    | nil => simp [queueOf, hlookup, names] at hqueue
    | cons primary rest =>
      obtain ⟨rfl, rfl⟩ : primary.endpointName = owner ∧ names rest = waiting := by
        simpa [queueOf, hlookup] using hqueue
      rw [queueOf_removeAlias h hvalid hlookup, if_pos rfl]

end NameTable

/-- In every run in which nobody requeues and releases happen while the
registered endpoints are up, every queue is nonempty, has no name twice and only
registered names. A name its owner releases, or whose owner leaves the bus,
passes to the first of those who remain, and is dropped only when none does. -/
theorem aliasQueues_kept (ops : List Op)
    (hrun : Lib.Run.Meets step (fun s op => s.1.Orderly op) (NameTable.empty, []) ops) :
    let t := (ops.foldl step (NameTable.empty, [])).1
    t.QueuesOk ∧
      (t.AllValid → ∀ aliasName owner waiting, t.queueOf aliasName = owner :: waiting →
        (t.removeAlias aliasName owner).2.1.queueOf aliasName = waiting ∧
          ((t.removeAlias aliasName owner).2.1.aliasNames.lookup aliasName = none ↔
            waiting = [])) ∧
      (t.AllValid → ∀ leaver ∈ t.uniqueNames, ∀ aliasName,
        (t.removeUniqueName leaver).1.queueOf aliasName =
            (t.queueOf aliasName).filter (· ≠ leaver) ∧
          ((t.removeUniqueName leaver).1.aliasNames.lookup aliasName = none ↔
            (t.queueOf aliasName).filter (· ≠ leaver) = [])) := by
  intro t
  have hempty : NameTable.empty.QueuesOk := by
    intro aliasName queue hlookup
    simp [NameTable.empty] at hlookup
  have hok : t.QueuesOk :=
    hrun.invariant (fun s => s.1.QueuesOk) (fun _ op h horderly => h.apply op horderly) hempty
  refine ⟨hok, fun hvalid aliasName owner waiting hqueue => ?_,
    fun hvalid leaver hmem aliasName => ?_⟩
  · have hpasses := hok.removeAlias_passes hvalid hqueue
    refine ⟨hpasses, ?_⟩
    rw [NameTable.lookup_eq_none_iff_queueOf (hok.removeAlias aliasName owner), hpasses]
  · obtain ⟨hafter, hleft⟩ := NameTable.removeUniqueName_spec hok hvalid hmem
    refine ⟨hleft aliasName, ?_⟩
    rw [NameTable.lookup_eq_none_iff_queueOf hafter, hleft aliasName]

/-- The clients and the well-known name of the sample runs. -/
def client (digit : Char) : UniqueName := ⟨[':', '1', '.', digit], rfl⟩

def service : WellKnownName := ⟨['s', '.', 'v'], by decide⟩

/-- Three clients connect and ask for the same name, in order; then the second
leaves. -/
def threeClients : List Op :=
  [.addUniqueName (.localEndpoint (client '1') true),
   .addUniqueName (.localEndpoint (client '2') true),
   .addUniqueName (.localEndpoint (client '3') true),
   .addAlias service (client '1') 0#32,
   .addAlias service (client '2') 0#32,
   .addAlias service (client '3') 0#32,
   .removeUniqueName (client '2')]

theorem aliasQueues_kept_threeClients :
    (threeClients.foldl step (NameTable.empty, [])).1.queueOf service =
        [client '1', client '3'] ∧
      (threeClients.foldl step (NameTable.empty, [])).1.QueuesOk :=
  ⟨by decide, (aliasQueues_kept threeClients (by decide)).1⟩

/-- The second client asks twice for the name, leaves the bus, and the owner
releases the name. -/
def repeatedRequest : List Op :=
  [.addUniqueName (.localEndpoint (client '1') true),
   .addUniqueName (.localEndpoint (client '2') true),
   .addUniqueName (.localEndpoint (client '3') true),
   .addAlias service (client '1') 0#32,
   .addAlias service (client '2') 0#32,
   .addAlias service (client '2') 0#32,
   .addAlias service (client '3') 0#32,
   .removeUniqueName (client '2')]

theorem repeatedRequest_drops_waiter :
    let t := (repeatedRequest.foldl step (NameTable.empty, [])).1
    t.queueOf service = [client '1', client '2', client '3'] ∧
      client '2' ∉ t.uniqueNames ∧ t.isValid (client '3') = true ∧
      (t.removeAlias service (client '1')).2.1.aliasNames.lookup service = none ∧
      ¬ t.QueuesOk := by
  intro t
  have hqueue : t.queueOf service = [client '1', client '2', client '3'] := by decide
  have hgone : client '2' ∉ t.uniqueNames := by decide
  refine ⟨hqueue, hgone, by decide, by decide, fun hok => ?_⟩
  cases hlookup : t.aliasNames.lookup service with
  | none => simp [NameTable.queueOf, hlookup, names] at hqueue
  | some queue =>
    have hnames : names queue = [client '1', client '2', client '3'] := by
      simpa [NameTable.queueOf, hlookup] using hqueue
    exact hgone ((hok service queue hlookup).registered (client '2') (by simp [hnames]))

end AllJoyn.Names
