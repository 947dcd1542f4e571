import AllJoyn.Names.NameTable

/-!
What `RemoveUniqueName` does to the alias queues: the effect of one walk over
the map, the rule by which a property of the table passes through the whole
loop, and the bound on the number of times the walk starts over.
-/

namespace AllJoyn.Names.NameTable

open List

variable (t : NameTable)

theorem lookup_setQueue (aliasName : WellKnownName)
    (queue : List NameQueueEntry) (other : WellKnownName) :
    (t.setQueue aliasName queue).aliasNames.lookup other =
      if other = aliasName then some queue else t.aliasNames.lookup other := by
  by_cases hsame : other = aliasName
  · subst hsame
    simp [setQueue]
  · simp [setQueue, hsame]

theorem lookup_eraseQueue (aliasName other : WellKnownName) :
    (t.eraseQueue aliasName).aliasNames.lookup other =
      if other = aliasName then none else t.aliasNames.lookup other := by
  by_cases hsame : other = aliasName
  · subst hsame
    simp [eraseQueue]
  · simp [eraseQueue, hsame]

/-- The name is at the front of the queue. -/
def Heads (uniqueName : UniqueName) (queue : List NameQueueEntry) : Prop :=
  queue.head?.map (·.endpointName) = some uniqueName

variable {uniqueName : UniqueName} {queue : List NameQueueEntry}

theorem Heads.exists_cons (h : Heads uniqueName queue) :
    ∃ primary rest, queue = primary :: rest ∧ primary.endpointName = uniqueName := by
  cases queue with
  | nil => simp [Heads] at h
  | cons primary rest => exact ⟨primary, rest, rfl, by simpa [Heads] using h⟩

/-- What one walk leaves of a queue: all of it, or all but the first entry of a
name that only waits in it. -/
def Dropped (uniqueName : UniqueName) (before after : List NameQueueEntry) : Prop :=
  after = before ∨
    (¬ Heads uniqueName before ∧ after = before.eraseP (·.endpointName = uniqueName))

theorem Dropped.head? {before after : List NameQueueEntry}
    (h : Dropped uniqueName before after) : after.head? = before.head? := by
  rcases h with rfl | ⟨hheads, rfl⟩
  · rfl
  · cases before with
    | nil => rfl
    | cons primary rest =>
      have hne : primary.endpointName ≠ uniqueName := by simpa [Heads] using hheads
      simp [hne]

theorem Dropped.sublist {before after : List NameQueueEntry}
    (h : Dropped uniqueName before after) : after.Sublist before := by
  rcases h with rfl | ⟨-, rfl⟩
  · exact List.Sublist.refl _
  · exact eraseP_sublist

section DropWaiting

variable {uniqueName : UniqueName} {name : WellKnownName} {queue : List NameQueueEntry}
  (rest : List (Σ _ : WellKnownName, List NameQueueEntry))

theorem dropWaiting_heads (hheads : Heads uniqueName queue) :
    dropWaiting uniqueName (⟨name, queue⟩ :: rest) = (⟨name, queue⟩ :: rest, some name) :=
  if_pos hheads

theorem dropWaiting_waits (hheads : ¬ Heads uniqueName queue) :
    dropWaiting uniqueName (⟨name, queue⟩ :: rest) =
      (⟨name, queue.eraseP (·.endpointName = uniqueName)⟩ ::
        (dropWaiting uniqueName rest).1, (dropWaiting uniqueName rest).2) :=
  if_neg hheads

end DropWaiting

section DropPass

variable (uniqueName : UniqueName) (aliasName : WellKnownName)

private theorem dlookup_dropWaiting (entries : List (Σ _ : WellKnownName, List NameQueueEntry)) :
    ((dropWaiting uniqueName entries).1.dlookup aliasName = none ∧
        entries.dlookup aliasName = none) ∨
      ∃ before after, entries.dlookup aliasName = some before ∧
        (dropWaiting uniqueName entries).1.dlookup aliasName = some after ∧
        Dropped uniqueName before after ∧
        ((dropWaiting uniqueName entries).2 = none →
          ¬ Heads uniqueName before ∧
            after = before.eraseP (·.endpointName = uniqueName)) := by
  induction entries with
  | nil => exact Or.inl ⟨rfl, rfl⟩
  | cons entry rest ih =>
    obtain ⟨name, queue⟩ := entry
    by_cases hheads : Heads uniqueName queue
    · rw [dropWaiting_heads rest hheads]
      cases hlookup : List.dlookup aliasName (⟨name, queue⟩ :: rest) with
      | none => exact Or.inl ⟨rfl, rfl⟩
      | some before => exact Or.inr ⟨before, before, rfl, rfl, Or.inl rfl, by simp⟩
    · rw [dropWaiting_waits rest hheads]
      by_cases hname : aliasName = name
      · subst hname
        right
        refine ⟨queue, queue.eraseP (·.endpointName = uniqueName), ?_, ?_, ?_, ?_⟩
        · exact dlookup_cons_eq ..
        · exact dlookup_cons_eq ..
        · exact Or.inr ⟨hheads, rfl⟩
        · exact fun _ => ⟨hheads, rfl⟩
      · rw [dlookup_cons_ne _ _ hname, dlookup_cons_ne _ _ hname]
        exact ih

/-- One walk shortens queues and keeps their owners. When it reaches the end no
queue is owned by the name, and each lost the first entry of it. -/
theorem lookup_dropPass :
    ((t.dropPass uniqueName).1.aliasNames.lookup aliasName = none ∧
        t.aliasNames.lookup aliasName = none) ∨
      ∃ before after, t.aliasNames.lookup aliasName = some before ∧
        (t.dropPass uniqueName).1.aliasNames.lookup aliasName = some after ∧
        Dropped uniqueName before after ∧
        ((t.dropPass uniqueName).2 = none →
          ¬ Heads uniqueName before ∧
            after = before.eraseP (·.endpointName = uniqueName)) :=
  dlookup_dropWaiting uniqueName aliasName t.aliasNames.entries

private theorem dropWaiting_owned (entries : List (Σ _ : WellKnownName, List NameQueueEntry))
    (hkeys : entries.NodupKeys) (howned : (dropWaiting uniqueName entries).2 = some aliasName) :
    ∃ queue, (dropWaiting uniqueName entries).1.dlookup aliasName = some queue ∧
      Heads uniqueName queue := by
  induction entries with
  | nil => simp [dropWaiting] at howned
  | cons entry rest ih =>
    obtain ⟨name, queue⟩ := entry
    by_cases hheads : Heads uniqueName queue
    · rw [dropWaiting_heads rest hheads] at howned ⊢
      obtain rfl : name = aliasName := by simpa using howned
      exact ⟨queue, dlookup_cons_eq .., hheads⟩
    · rw [dropWaiting_waits rest hheads] at howned ⊢
      obtain ⟨hfresh, hrest⟩ := nodupKeys_cons.mp hkeys
      obtain ⟨found, hfound, howner⟩ := ih hrest howned
      have hmem : aliasName ∈ rest.keys := by
        rw [← dropWaiting_keys uniqueName rest, ← dlookup_isSome, hfound]
        rfl
      have hne : aliasName ≠ name := fun heq => hfresh (heq ▸ hmem)
      exact ⟨found, (dlookup_cons_ne _ _ hne).trans hfound, howner⟩

theorem dropPass_owned (howned : (t.dropPass uniqueName).2 = some aliasName) :
    ∃ primary rest, (t.dropPass uniqueName).1.aliasNames.lookup aliasName =
      some (primary :: rest) ∧ primary.endpointName = uniqueName := by
  obtain ⟨queue, hlookup, hheads⟩ :=
    dropWaiting_owned uniqueName aliasName t.aliasNames.entries t.aliasNames.nodupKeys howned
  obtain ⟨primary, rest, rfl, hname⟩ := hheads.exists_cons
  exact ⟨primary, rest, hlookup, hname⟩

end DropPass

/-- Every queue of the table has the property. -/
def EveryQueue (P : List NameQueueEntry → Prop) (t : NameTable) : Prop :=
  ∀ aliasName queue, t.aliasNames.lookup aliasName = some queue → P queue

/-- A property of queues that losing entries cannot break, as long as one is
left. -/
def Hereditary (P : List NameQueueEntry → Prop) : Prop :=
  ∀ queue shorter, P queue → shorter.Sublist queue → shorter ≠ [] → P shorter

section EveryQueue

variable {P : List NameQueueEntry → Prop} {t : NameTable}

theorem EveryQueue.setQueue (h : EveryQueue P t) (aliasName : WellKnownName) (hqueue : P queue) :
    EveryQueue P (t.setQueue aliasName queue) := by
  intro other found hlookup
  rw [lookup_setQueue] at hlookup
  split at hlookup
  · obtain rfl := Option.some.inj hlookup
    exact hqueue
  · exact h other found hlookup

theorem EveryQueue.eraseQueue (h : EveryQueue P t) (aliasName : WellKnownName) :
    EveryQueue P (t.eraseQueue aliasName) := by
  intro other found hlookup
  rw [lookup_eraseQueue] at hlookup
  split at hlookup
  · cases hlookup
  · exact h other found hlookup

theorem EveryQueue.dropPass (h : EveryQueue P t) (hP : Hereditary P) (uniqueName : UniqueName) :
    EveryQueue P (t.dropPass uniqueName).1 := by
  intro aliasName queue hlookup
  rcases t.lookup_dropPass uniqueName aliasName with
    ⟨hnone, -⟩ | ⟨before, after, hbefore, hafter, hdropped, -⟩
  · rw [hnone] at hlookup
    cases hlookup
  · obtain rfl := Option.some.inj (hafter.symm.trans hlookup)
    have hqueue := h aliasName before hbefore
    cases after with
    | nil =>
      have hhead := hdropped.head?
      rwa [List.head?_eq_none_iff.mp hhead.symm] at hqueue
    | cons primary rest => exact hP before _ hqueue hdropped.sublist (cons_ne_nil _ _)

theorem EveryQueue.removeAlias (h : EveryQueue P t) (hP : Hereditary P)
    (aliasName : WellKnownName) (ownerName : UniqueName) :
    EveryQueue P (t.removeAlias aliasName ownerName).2.1 := by
  rcases t.removeAlias_cases aliasName ownerName with
    hsame | ⟨primary, next, rest, hlookup, -, -, hresult⟩ | ⟨_, _, -, -, -, hresult⟩
  · rw [hsame]
    exact h
  · rw [hresult]
    exact h.setQueue aliasName
      (hP _ _ (h aliasName _ hlookup) (sublist_cons_self ..) (cons_ne_nil _ _))
  · rw [hresult]
    exact h.eraseQueue aliasName

end EveryQueue

theorem removeAlias_frame (aliasName : WellKnownName) (ownerName : UniqueName) :
    (t.removeAlias aliasName ownerName).2.1.uniqueNames = t.uniqueNames ∧
      (t.removeAlias aliasName ownerName).2.1.virtualAliasNames = t.virtualAliasNames := by
  rcases t.removeAlias_cases aliasName ownerName with
    hsame | ⟨_, _, _, -, -, -, hresult⟩ | ⟨_, _, -, -, -, hresult⟩
  · rw [hsame]
    exact ⟨rfl, rfl⟩
  · rw [hresult]
    exact ⟨rfl, rfl⟩
  · rw [hresult]
    exact ⟨rfl, rfl⟩

variable (uniqueName : UniqueName)

/-- A property of the table and its announcements that the walk and the release
of an owned alias both keep holds when the loop is done. -/
theorem releaseNames_invariant (inv : History → Prop)
    (hdrop : ∀ t log, inv (t, log) → inv ((t.dropPass uniqueName).1, log))
    (hrelease : ∀ t log aliasName, inv (t, log) →
      inv ((t.removeAlias aliasName uniqueName).2.1,
        log ++ (t.removeAlias aliasName uniqueName).2.2))
    (fuel : Nat) (t : NameTable) (log : List Notification) (hstart : inv (t, log)) :
    inv ((releaseNames uniqueName fuel t).1, log ++ (releaseNames uniqueName fuel t).2) := by
  induction fuel generalizing t log with
  | zero => simpa [releaseNames] using hdrop t log hstart
  | succ fuel ih =>
    have hwalk := hdrop t log hstart
    cases hpass : t.dropPass uniqueName with
    | mk walked owned =>
      rw [hpass] at hwalk
      cases owned with
      | none => simpa [releaseNames, hpass] using hwalk
      | some aliasName =>
        have hnext := ih _ _ (hrelease walked log aliasName hwalk)
        simpa [releaseNames, hpass] using hnext

private theorem dropWaiting_queued (entries : List (Σ _ : WellKnownName, List NameQueueEntry)) :
    ((dropWaiting uniqueName entries).1.map (·.2.length)).sum ≤
      (entries.map (·.2.length)).sum := by
  induction entries with
  | nil => exact Nat.le_refl _
  | cons entry rest ih =>
    obtain ⟨name, queue⟩ := entry
    simp only [dropWaiting]
    split
    · exact Nat.le_refl _
    · have hlen := (eraseP_sublist (p := (·.endpointName = uniqueName))
        (l := queue)).length_le
      simp only [map_cons, sum_cons]
      omega

theorem queued_dropPass (uniqueName : UniqueName) :
    (t.dropPass uniqueName).1.queued ≤ t.queued :=
  dropWaiting_queued uniqueName t.aliasNames.entries

theorem queued_eraseQueue (aliasName : WellKnownName)
    (queue : List NameQueueEntry) (hlookup : t.aliasNames.lookup aliasName = some queue) :
    (t.eraseQueue aliasName).queued + queue.length = t.queued := by
  have hmem : aliasName ∈ t.aliasNames.entries.keys := by
    rw [← dlookup_isSome]
    exact Option.isSome_iff_exists.mpr ⟨queue, hlookup⟩
  obtain ⟨found, first, second, hfresh, hsplit, herase⟩ := exists_of_kerase hmem
  have hfound : found = queue := by
    have hlook : t.aliasNames.entries.dlookup aliasName = some found := by
      rw [hsplit, dlookup_append, dlookup_eq_none.mpr hfresh]
      simp
    exact Option.some.inj (hlook.symm.trans hlookup)
  subst hfound
  have herased : (t.eraseQueue aliasName).aliasNames.entries = first ++ second := herase
  simp only [queued, herased, hsplit, map_append, map_cons, sum_append,
    sum_cons]
  omega

theorem queued_setQueue (aliasName : WellKnownName)
    (queue : List NameQueueEntry) :
    (t.setQueue aliasName queue).queued = (t.eraseQueue aliasName).queued + queue.length := by
  have hentries : (t.setQueue aliasName queue).aliasNames.entries =
      ⟨aliasName, queue⟩ :: (t.eraseQueue aliasName).aliasNames.entries :=
    AList.entries_insert
  simp only [queued, hentries, map_cons, sum_cons]
  omega

theorem queued_removeAlias (aliasName : WellKnownName)
    (primary : NameQueueEntry) (rest : List NameQueueEntry)
    (hlookup : t.aliasNames.lookup aliasName = some (primary :: rest)) :
    (t.removeAlias aliasName primary.endpointName).2.1.queued < t.queued := by
  have herase := t.queued_eraseQueue aliasName _ hlookup
  rw [length_cons] at herase
  cases hnext : t.nextOwner (primary :: rest) with
  | none =>
    have hresult : (t.removeAlias aliasName primary.endpointName).2.1 =
        t.eraseQueue aliasName := by
      simp [removeAlias, hlookup, hnext]
    rw [hresult]
    omega
  | some next =>
    have hresult : (t.removeAlias aliasName primary.endpointName).2.1 =
        t.setQueue aliasName rest := by
      simp [removeAlias, hlookup, hnext]
    rw [hresult, queued_setQueue]
    omega

/-- The walk starts over at most once for each queue entry, so that more fuel
changes nothing. -/
theorem releaseNames_fuel (fuel : Nat) (t : NameTable)
    (hfuel : t.queued ≤ fuel) :
    releaseNames uniqueName (fuel + 1) t = releaseNames uniqueName fuel t := by
  induction fuel generalizing t with
  | zero =>
    cases hpass : t.dropPass uniqueName with
    | mk walked owned =>
      cases owned with
      | none => simp [releaseNames, hpass]
      | some aliasName =>
        obtain ⟨primary, rest, hlookup, -⟩ := t.dropPass_owned uniqueName aliasName
          (by rw [hpass])
        have hle := t.queued_dropPass uniqueName
        have hless := queued_removeAlias _ aliasName primary rest hlookup
        omega
  | succ fuel ih =>
    cases hpass : t.dropPass uniqueName with
    | mk walked owned =>
      cases owned with
      | none => simp [releaseNames, hpass]
      | some aliasName =>
        obtain ⟨primary, rest, hlookup, rfl⟩ := t.dropPass_owned uniqueName aliasName
          (by rw [hpass])
        have hle := t.queued_dropPass primary.endpointName
        have hless := queued_removeAlias _ aliasName primary rest hlookup
        simp only [hpass] at hle hless
        have hnext := ih (walked.removeAlias aliasName primary.endpointName).2.1 (by omega)
        rw [releaseNames, releaseNames, hpass]
        simp only [hnext]

end AllJoyn.Names.NameTable
