import AllJoyn.Lib.Assoc
import AllJoyn.Names.Queues

/-!
The `NameOwnerChanged` notifications of a run, read for one well-known name at a
time. They form a chain from no owner to the owner the table reports, whatever
the operations. An announcement that leaves the owner as it was says that the
name transfer of a virtual owner changed, as long as the table is used as its
callers use it.
-/

namespace AllJoyn.Names

open VirtualEndpoint List

variable {t next : NameTable} {aliasName : WellKnownName} {isLocal : UniqueName → Bool}

/-- The notifications about one well-known name. -/
def about (aliasName : WellKnownName) (log : List Notification) : List Notification :=
  log.filter (·.name = .wellKnown aliasName)

/-- Each old owner is the new owner of the notification before, the first is
`owner` and the last new owner is `final`. -/
def OwnerChain : Option UniqueName → List Notification → Option UniqueName → Prop
  | owner, [], final => owner = final
  | owner, change :: rest, final => change.oldOwner = owner ∧ OwnerChain change.newOwner rest final

/-- An announcement that keeps the owner reports another name transfer. -/
def Notification.Informs (change : Notification) : Prop :=
  change.oldOwner = change.newOwner →
    change.oldOwnerNameTransfer ≠ change.newOwnerNameTransfer

theorem OwnerChain.append {owner middle final : Option UniqueName}
    {first second : List Notification} (hfirst : OwnerChain owner first middle)
    (hsecond : OwnerChain middle second final) : OwnerChain owner (first ++ second) final := by
  induction first generalizing owner with
  | nil =>
    obtain rfl : owner = middle := hfirst
    exact hsecond
  | cons change rest ih => exact ⟨hfirst.1, ih hfirst.2⟩

namespace NameTable

/-- The notifications lead from the owners in one table to those in the next. -/
def Announces (t next : NameTable) (changes : List Notification) : Prop :=
  ∀ aliasName, OwnerChain (t.getNameOwner aliasName) (about aliasName changes)
    (next.getNameOwner aliasName)

theorem Announces.trans {middle : NameTable} {first second : List Notification}
    (hfirst : Announces t middle first) (hsecond : Announces middle next second) :
    Announces t next (first ++ second) := by
  intro aliasName
  rw [about, filter_append]
  exact (hfirst aliasName).append (hsecond aliasName)

theorem announces_of_owners
    (howners : ∀ aliasName, next.getNameOwner aliasName = t.getNameOwner aliasName) :
    Announces t next [] :=
  fun aliasName => (howners aliasName).symm

variable {change : Notification} {name : UniqueName}

theorem announces_unique (t : NameTable) (hname : change.name = .unique name) :
    Announces t t [change] := by
  intro aliasName
  simp [about, hname, OwnerChain]

theorem announces_single (hname : change.name = .wellKnown aliasName)
    (hold : change.oldOwner = t.getNameOwner aliasName)
    (hnew : change.newOwner = next.getNameOwner aliasName)
    (hothers : ∀ other, other ≠ aliasName → next.getNameOwner other = t.getNameOwner other) :
    Announces t next [change] := by
  intro other
  by_cases hother : other = aliasName
  · subst hother
    simp [about, hname, OwnerChain, hold, hnew]
  · have hne : ¬ aliasName = other := fun heq => hother heq.symm
    simp [about, hname, hne, OwnerChain, hothers other hother]

theorem getNameOwner_of_lookup {primary : NameQueueEntry} {waiting : List NameQueueEntry}
    (hlookup : t.aliasNames.lookup aliasName = some (primary :: waiting)) :
    t.getNameOwner aliasName = some primary.endpointName := by
  simp [getNameOwner, hlookup]

theorem getNameOwner_of_none (hlookup : t.aliasNames.lookup aliasName = none) :
    t.getNameOwner aliasName = (t.virtualOwner aliasName).1 := by
  cases hvirtual : t.virtualAliasNames.lookup aliasName <;>
    simp [getNameOwner, virtualOwner, hlookup, hvirtual]

section Announces

variable (t : NameTable)

theorem getNameOwner_setQueue (aliasName : WellKnownName) (primary : NameQueueEntry)
    (waiting : List NameQueueEntry) (other : WellKnownName) :
    (t.setQueue aliasName (primary :: waiting)).getNameOwner other =
      if other = aliasName then some primary.endpointName else t.getNameOwner other := by
  unfold getNameOwner
  rw [lookup_setQueue]
  by_cases hother : other = aliasName
  · simp [hother]
  · simp only [if_neg hother]
    rfl

theorem getNameOwner_eraseQueue (aliasName other : WellKnownName) :
    (t.eraseQueue aliasName).getNameOwner other =
      if other = aliasName then (t.virtualOwner aliasName).1 else t.getNameOwner other := by
  by_cases hother : other = aliasName
  · subst hother
    have hlookup := t.lookup_eraseQueue other other
    rw [if_pos rfl] at hlookup
    rw [if_pos rfl, getNameOwner_of_none hlookup]
    rfl
  · unfold getNameOwner
    rw [lookup_eraseQueue]
    simp only [if_neg hother]
    rfl

theorem removeAlias_announces (aliasName : WellKnownName) (ownerName : UniqueName) :
    Announces t (t.removeAlias aliasName ownerName).2.1
      (t.removeAlias aliasName ownerName).2.2 := by
  rcases t.removeAlias_cases aliasName ownerName with
    hsame | ⟨primary, next, rest, hlookup, rfl, -, hresult⟩ |
      ⟨primary, rest, hlookup, rfl, -, hresult⟩
  · rw [hsame]
    exact announces_of_owners fun _ => rfl
  · rw [hresult]
    apply announces_single rfl (getNameOwner_of_lookup hlookup).symm
    · rw [getNameOwner_setQueue, if_pos rfl]
    · intro other hother
      rw [getNameOwner_setQueue, if_neg hother]
  · rw [hresult]
    apply announces_single rfl (getNameOwner_of_lookup hlookup).symm
    · rw [getNameOwner_eraseQueue, if_pos rfl]
    · intro other hother
      rw [getNameOwner_eraseQueue, if_neg hother]

theorem addAlias_announces (aliasName : WellKnownName) (uniqueName : UniqueName) (flags : BitVec 32)
    :
    Announces t (t.addAlias aliasName uniqueName flags).2.2.1
      (t.addAlias aliasName uniqueName flags).2.2.2 := by
  rcases t.addAlias_cases aliasName uniqueName flags with
    hsame | ⟨-, ⟨primary, waiting, hlookup, -, -, -, hresult⟩ |
      ⟨primary, waiting, hlookup, -, -, hresult⟩ | ⟨hlookup, hresult⟩⟩
  · rw [hsame]
    exact announces_of_owners fun _ => rfl
  · rw [hresult]
    apply announces_single rfl (getNameOwner_of_lookup hlookup).symm
    · rw [getNameOwner_setQueue, if_pos rfl]
    · intro other hother
      rw [getNameOwner_setQueue, if_neg hother]
  · rw [hresult]
    apply announces_of_owners
    intro other
    rw [cons_append, getNameOwner_setQueue]
    split
    · rename_i hother
      rw [hother, getNameOwner_of_lookup hlookup]
    · rfl
  · rw [hresult]
    apply announces_single rfl (getNameOwner_of_none hlookup).symm
    · rw [getNameOwner_setQueue, if_pos rfl]
    · intro other hother
      rw [getNameOwner_setQueue, if_neg hother]

theorem dropPass_announces (uniqueName : UniqueName) :
    Announces t (t.dropPass uniqueName).1 [] := by
  apply announces_of_owners
  intro aliasName
  unfold getNameOwner
  rcases t.lookup_dropPass uniqueName aliasName with
    ⟨hafter, hbefore⟩ | ⟨before, after, hbefore, hafter, hdropped, -⟩
  · rw [hafter, hbefore]
    rfl
  · simp only [hafter, hbefore, hdropped.head?]

theorem removeUniqueName_announces (uniqueName : UniqueName) :
    Announces t (t.removeUniqueName uniqueName).1 (t.removeUniqueName uniqueName).2 := by
  unfold removeUniqueName
  cases t.uniqueNames.lookup uniqueName with
  | none => exact announces_of_owners fun _ => rfl
  | some entry =>
    have hreleased := releaseNames_invariant uniqueName (fun s => Announces t s.1 s.2)
      (fun walked log h => by simpa using h.trans (walked.dropPass_announces uniqueName))
      (fun walked log aliasName h => h.trans (walked.removeAlias_announces aliasName uniqueName))
      t.queued t [] (announces_of_owners fun _ => rfl)
    exact hreleased.trans (announces_unique _ rfl)

section VirtualAlias

variable (aliasName : WellKnownName) (newOwner : Option VirtualEndpoint)

/-- `SetVirtualAlias` refuses, or installs the new owner and announces the change
unless nothing changed or a local owner masks it. -/
theorem setVirtualAlias_cases (requester : UniqueName) :
    (t.setVirtualAlias aliasName newOwner requester).2 = (t, []) ∨
      (t.setVirtualAlias aliasName newOwner requester).2 =
        ({ t with virtualAliasNames := (t.virtualUpdate aliasName newOwner).1 },
         if (t.virtualUpdate aliasName newOwner).2.1 && !(t.aliasNames.lookup aliasName).isSome then
           [⟨.wellKnown aliasName, (t.virtualOwner aliasName).1, (t.virtualOwner aliasName).2,
             newOwner.map uniqueName, (t.virtualUpdate aliasName newOwner).2.2⟩]
         else []) := by
  unfold setVirtualAlias
  split
  · exact Or.inl rfl
  · exact Or.inr rfl

theorem lookup_virtualUpdate (other : WellKnownName) :
    (t.virtualUpdate aliasName newOwner).1.lookup other =
      if other = aliasName then newOwner.map fun endpoint => ⟨endpoint, endpoint.getNameTransfer⟩
      else t.virtualAliasNames.lookup other := by
  by_cases hother : other = aliasName
  · subst hother
    cases newOwner <;> simp [virtualUpdate]
  · cases newOwner <;> simp [virtualUpdate, hother]

theorem virtualUpdate_unchanged (hsame : (t.virtualUpdate aliasName newOwner).2.1 = false) :
    newOwner.map uniqueName =
      (t.virtualAliasNames.lookup aliasName).map (·.endpoint.uniqueName) := by
  cases newOwner with
  | none => simp [virtualUpdate] at hsame
  | some endpoint =>
    cases hlookup : t.virtualAliasNames.lookup aliasName with
    | none => simp [virtualUpdate, hlookup] at hsame
    | some old =>
      have hiden : endpoint.iden old.endpoint = true := by
        simp [virtualUpdate, hlookup] at hsame
        exact hsame.1
      have hname : endpoint.uniqueName = old.endpoint.uniqueName := by
        simp only [iden, decide_eq_true_eq] at hiden
        exact hiden.1
      simp [hname]

theorem setVirtualAlias_announces (requester : UniqueName) :
    Announces t (t.setVirtualAlias aliasName newOwner requester).2.1
      (t.setVirtualAlias aliasName newOwner requester).2.2 := by
  rcases t.setVirtualAlias_cases aliasName newOwner requester with hsame | hresult
  · rw [hsame]
    exact announces_of_owners fun _ => rfl
  · rw [hresult]
    have hothers : ∀ other, other ≠ aliasName →
        ({ t with virtualAliasNames := (t.virtualUpdate aliasName newOwner).1 } :
          NameTable).getNameOwner other = t.getNameOwner other := by
      intro other hother
      simp [getNameOwner, lookup_virtualUpdate, hother]
    cases hlocal : t.aliasNames.lookup aliasName with
    | some queue =>
      simp only [Option.isSome_some, Bool.not_true, Bool.and_false]
      apply announces_of_owners
      intro other
      by_cases hother : other = aliasName
      · subst hother
        simp [getNameOwner, hlocal]
      · exact hothers other hother
    | none =>
      have hnew : ({ t with virtualAliasNames := (t.virtualUpdate aliasName newOwner).1 } :
          NameTable).getNameOwner aliasName = newOwner.map uniqueName := by
        cases newOwner <;> simp [getNameOwner, hlocal, lookup_virtualUpdate]
      cases hchange : (t.virtualUpdate aliasName newOwner).2.1 with
      | true =>
        exact announces_single rfl (getNameOwner_of_none hlocal).symm hnew.symm hothers
      | false =>
        apply announces_of_owners
        intro other
        by_cases hother : other = aliasName
        · subst hother
          rw [hnew, t.virtualUpdate_unchanged other newOwner hchange]
          simp [getNameOwner, hlocal]
        · exact hothers other hother

end VirtualAlias

/-- The announcements of `RemoveVirtualAliases` about one alias: one when the
alias is removed and not masked. -/
theorem about_removeVirtualAliases (epName : UniqueName) (aliasName : WellKnownName) :
    about aliasName (t.removeVirtualAliases epName).2 =
      ((t.virtualAliasNames.lookup aliasName).bind fun entry =>
        if ownedBy (t.findUnique epName) entry then
          if (t.aliasNames.lookup aliasName).isSome then none
          else some ⟨.wellKnown aliasName, some epName, entry.nameTransfer, none, .allNames⟩
        else none).toList := by
  simp only [removeVirtualAliases, filterMap_filter]
  apply Lib.Assoc.filter_filterMap _ _ aliasName _ t.virtualAliasNames.nodupKeys
  intro entry change hchange
  split at hchange
  · split at hchange
    · cases hchange
    · obtain rfl := Option.some.inj hchange
      simp
  · cases hchange

theorem lookup_removeVirtualAliases (epName : UniqueName) (aliasName : WellKnownName) :
    (t.removeVirtualAliases epName).1.virtualAliasNames.lookup aliasName =
      (t.virtualAliasNames.lookup aliasName).filter
        (fun entry => !ownedBy (t.findUnique epName) entry) :=
  Lib.Assoc.dlookup_filter _ aliasName t.virtualAliasNames.nodupKeys

end Announces

theorem ownedBy_name {epName : UniqueName} {entry : VirtualAliasEntry}
    (howned : ownedBy (t.findUnique epName) entry = true) : entry.endpoint.uniqueName = epName := by
  unfold findUnique at howned
  cases hlookup : t.uniqueNames.lookup epName with
  | none => simp [ownedBy, hlookup] at howned
  | some registered =>
    obtain ⟨found, hname⟩ := registered
    cases hendpoint : found.endpoint with
    | localEndpoint name isValid => simp [ownedBy, hlookup, hendpoint] at howned
    | virtualEndpoint owner =>
      have hiden : entry.endpoint.iden owner = true := by
        simpa [ownedBy, hlookup, hendpoint] using howned
      simp only [iden, decide_eq_true_eq] at hiden
      rw [hendpoint] at hname
      exact hiden.1.trans hname

theorem removeVirtualAliases_announces (t : NameTable) (epName : UniqueName) :
    Announces t (t.removeVirtualAliases epName).1 (t.removeVirtualAliases epName).2 := by
  intro aliasName
  rw [about_removeVirtualAliases]
  have hafter := t.lookup_removeVirtualAliases epName aliasName
  have hlocal : (t.removeVirtualAliases epName).1.aliasNames = t.aliasNames := rfl
  unfold getNameOwner
  rw [hafter, hlocal]
  cases hvirtual : t.virtualAliasNames.lookup aliasName with
  | none => simp [OwnerChain]
  | some entry =>
    cases hqueue : t.aliasNames.lookup aliasName with
    | some queue => simp [OwnerChain]
    | none =>
      by_cases howned : ownedBy (t.findUnique epName) entry = true
      · simp [howned, OwnerChain, ownedBy_name howned]
      · simp [howned, OwnerChain]

theorem invalidate_announces (t : NameTable) (name : UniqueName) :
    Announces t (t.invalidate name) [] := by
  apply announces_of_owners
  intro aliasName
  unfold invalidate
  split <;> rfl

theorem apply_announces (t : NameTable) (op : Op) :
    Announces t (t.apply op).1 (t.apply op).2 := by
  cases op with
  | addUniqueName endpoint => exact announces_unique t rfl
  | removeUniqueName uniqueName => exact t.removeUniqueName_announces uniqueName
  | addAlias aliasName uniqueName flags => exact t.addAlias_announces aliasName uniqueName flags
  | removeAlias aliasName ownerName => exact t.removeAlias_announces aliasName ownerName
  | setVirtualAlias aliasName newOwner requester =>
    exact t.setVirtualAlias_announces aliasName newOwner requester
  | removeVirtualAliases epName => exact t.removeVirtualAliases_announces epName
  | invalidate name => exact t.invalidate_announces name

/-- How the router uses the table, given which unique names are its own. Local
names are asked for by local endpoints, once while they wait; remote daemons
announce endpoints of their own, one object for each name, and take back only
what they announced. -/
def Regular (isLocal : UniqueName → Bool) (t : NameTable) : Op → Prop
  | .addAlias aliasName uniqueName flags =>
    isLocal uniqueName = true ∧ t.requeues aliasName uniqueName flags = false
  | .setVirtualAlias aliasName (some endpoint) _ =>
    isLocal endpoint.uniqueName = false ∧
      (t.virtualAliasNames.lookup aliasName).all fun old =>
        old.endpoint.uniqueName ≠ endpoint.uniqueName ∨ endpoint.iden old.endpoint
  | .setVirtualAlias aliasName none _ => aliasName ∈ t.virtualAliasNames
  | _ => True

instance (isLocal : UniqueName → Bool) (t : NameTable) (op : Op) :
    Decidable (t.Regular isLocal op) :=
  match op with
  | .addAlias aliasName uniqueName flags =>
    inferInstanceAs (Decidable
      (isLocal uniqueName = true ∧ t.requeues aliasName uniqueName flags = false))
  | .setVirtualAlias _ (some _) _ => inferInstanceAs (Decidable (_ ∧ _))
  | .setVirtualAlias aliasName none _ =>
    inferInstanceAs (Decidable (aliasName ∈ t.virtualAliasNames))
  | .removeAlias _ _ => isTrue trivial
  | .removeUniqueName _ => isTrue trivial
  | .addUniqueName _ => isTrue trivial
  | .removeVirtualAliases _ => isTrue trivial
  | .invalidate _ => isTrue trivial

/-- Local owners are local and appear once, virtual owners are not local. -/
structure Separated (isLocal : UniqueName → Bool) (t : NameTable) : Prop where
  queues : t.EveryQueue fun queue => (names queue).Nodup ∧ ∀ name ∈ names queue, isLocal name = true
  virtuals : ∀ aliasName entry, t.virtualAliasNames.lookup aliasName = some entry →
    isLocal entry.endpoint.uniqueName = false

/-- A table that is separated, and notifications that inform. -/
def Informed (isLocal : UniqueName → Bool) (s : History) : Prop :=
  s.1.Separated isLocal ∧ ∀ change ∈ s.2, change.Informs

theorem Informed.append {s : History} {changes : List Notification} (h : Informed isLocal s)
    (hnext : Informed isLocal (next, changes)) : Informed isLocal (next, s.2 ++ changes) :=
  ⟨hnext.1, forall_mem_append.2 ⟨h.2, hnext.2⟩⟩

theorem hereditary_separated (isLocal : UniqueName → Bool) :
    Hereditary fun queue => (names queue).Nodup ∧ ∀ name ∈ names queue, isLocal name = true := by
  intro queue shorter h hsub _
  have hnames : (names shorter).Sublist (names queue) := hsub.map _
  exact ⟨h.1.sublist hnames, fun name hmem => h.2 name (hnames.subset hmem)⟩

section Separation

variable (h : t.Separated isLocal)

include h

theorem Separated.virtualOwner_ne (hlocal : isLocal name = true) (aliasName : WellKnownName) :
    (t.virtualOwner aliasName).1 ≠ some name := by
  cases hlookup : t.virtualAliasNames.lookup aliasName with
  | none => simp [virtualOwner, hlookup]
  | some entry =>
    have hremote := h.virtuals aliasName entry hlookup
    simp only [virtualOwner, hlookup, ne_eq, Option.some.injEq]
    rintro rfl
    rw [hlocal] at hremote
    cases hremote

theorem Separated.removeAlias (aliasName : WellKnownName) (ownerName : UniqueName) :
    Informed isLocal (t.removeAlias aliasName ownerName).2 := by
  refine ⟨⟨h.queues.removeAlias (hereditary_separated isLocal) aliasName ownerName, ?_⟩, ?_⟩
  · rw [(t.removeAlias_frame aliasName ownerName).2]
    exact h.virtuals
  · rcases t.removeAlias_cases aliasName ownerName with
      hsame | ⟨primary, next, rest, hlookup, rfl, -, hresult⟩ |
        ⟨primary, rest, hlookup, rfl, -, hresult⟩
    · simp [hsame]
    · have hnodup := (h.queues aliasName _ hlookup).1
      have hne : primary.endpointName ≠ next.endpointName := by
        simp only [names_cons, List.nodup_cons, mem_cons, not_or] at hnodup
        exact hnodup.1.1
      simp [hresult, Notification.Informs, hne]
    · have hlocal := (h.queues aliasName _ hlookup).2 primary.endpointName (by simp)
      have hne := h.virtualOwner_ne hlocal aliasName
      simp [hresult, Notification.Informs, hne.symm]

theorem Separated.addAlias (aliasName : WellKnownName) (uniqueName : UniqueName) (flags : BitVec 32)
    (hlocal : isLocal uniqueName = true) (honce : t.requeues aliasName uniqueName flags = false) :
    Informed isLocal (t.addAlias aliasName uniqueName flags).2.2 := by
  have hpush : ∀ queue longer : List NameQueueEntry, uniqueName ∉ names queue →
      ((names queue).Nodup ∧ ∀ name ∈ names queue, isLocal name = true) →
      (names longer).Perm (uniqueName :: names queue) →
      (t.setQueue aliasName longer).Separated isLocal := by
    intro queue longer hfresh hqueue hperm
    refine ⟨h.queues.setQueue aliasName ⟨?_, fun name hmem => ?_⟩, h.virtuals⟩
    · exact hperm.nodup_iff.mpr (List.nodup_cons.mpr ⟨hfresh, hqueue.1⟩)
    · rcases mem_cons.mp (hperm.mem_iff.mp hmem) with rfl | hold
      · exact hlocal
      · exact hqueue.2 name hold
  rcases t.addAlias_cases aliasName uniqueName flags with
    hsame | ⟨-, ⟨primary, waiting, hlookup, hne, hallow, hreplace, hresult⟩ |
      ⟨primary, waiting, hlookup, hne, hqueue, hresult⟩ | ⟨hlookup, hresult⟩⟩
  · rw [hsame]
    exact ⟨h, by simp⟩
  · rw [hresult]
    have hfresh := fresh_of_requeues honce hlookup hne (Or.inr ⟨hallow, hreplace⟩)
    refine ⟨hpush _ _ hfresh (h.queues aliasName _ hlookup) (List.Perm.refl _), ?_⟩
    simp [Notification.Informs, hne]
  · rw [hresult]
    have hfresh := fresh_of_requeues honce hlookup hne (Or.inl hqueue)
    refine ⟨hpush _ _ hfresh (h.queues aliasName _ hlookup) ?_, by simp⟩
    rw [names_append]
    exact perm_append_singleton ..
  · rw [hresult]
    refine ⟨hpush [] _ (by simp [names]) (by simp [names]) (List.Perm.refl _), ?_⟩
    simp [Notification.Informs, h.virtualOwner_ne hlocal aliasName]

theorem Separated.removeUniqueName (uniqueName : UniqueName) :
    Informed isLocal (t.removeUniqueName uniqueName) := by
  unfold NameTable.removeUniqueName
  cases t.uniqueNames.lookup uniqueName with
  | none => exact ⟨h, by simp⟩
  | some entry =>
    have hreleased := releaseNames_invariant uniqueName (Informed isLocal)
      (fun walked log hs =>
        ⟨⟨hs.1.queues.dropPass (hereditary_separated isLocal) uniqueName, hs.1.virtuals⟩, hs.2⟩)
      (fun walked log aliasName hs => hs.append (hs.1.removeAlias aliasName uniqueName))
      t.queued t [] ⟨h, by simp⟩
    refine hreleased.append ⟨⟨hreleased.1.queues, hreleased.1.virtuals⟩, ?_⟩
    simp [Notification.Informs]

theorem Separated.setVirtualAlias (aliasName : WellKnownName) (newOwner : Option VirtualEndpoint)
    (requester : UniqueName)
    (hregular : t.Regular isLocal (.setVirtualAlias aliasName newOwner requester)) :
    Informed isLocal (t.setVirtualAlias aliasName newOwner requester).2 := by
  rcases t.setVirtualAlias_cases aliasName newOwner requester with hsame | hresult
  · rw [hsame]
    exact ⟨h, by simp⟩
  · rw [hresult]
    refine ⟨⟨h.queues, fun other entry hlookup => ?_⟩, fun change hmem => ?_⟩
    · simp only [lookup_virtualUpdate] at hlookup
      split at hlookup
      · cases newOwner with
        | none => cases hlookup
        | some endpoint =>
          obtain rfl := Option.some.inj hlookup
          exact hregular.1
      · exact h.virtuals other entry hlookup
    · have hchanged : (t.virtualUpdate aliasName newOwner).2.1 = true := by
        cases hupdate : (t.virtualUpdate aliasName newOwner).2.1 with
        | true => rfl
        | false => simp [hupdate] at hmem
      obtain rfl : change = ⟨.wellKnown aliasName, (t.virtualOwner aliasName).1,
          (t.virtualOwner aliasName).2, newOwner.map uniqueName,
          (t.virtualUpdate aliasName newOwner).2.2⟩ := by
        split at hmem
        · exact mem_singleton.mp hmem
        · cases hmem
      intro hsame
      cases hlookup : t.virtualAliasNames.lookup aliasName with
      | none =>
        cases newOwner with
        | none => exact absurd hregular (AList.lookup_eq_none.mp hlookup)
        | some endpoint => simp [virtualOwner, hlookup] at hsame
      | some old =>
        cases newOwner with
        | none => simp [virtualOwner, hlookup] at hsame
        | some endpoint =>
          have hname : old.endpoint.uniqueName = endpoint.uniqueName := by
            simpa [virtualOwner, hlookup] using hsame
          have hiden : endpoint.iden old.endpoint = true := by
            have hone := hregular.2
            simpa [hlookup, hname] using hone
          simpa [virtualUpdate, hlookup, hiden] using hchanged

theorem Separated.removeVirtualAliases (epName : UniqueName) :
    Informed isLocal (t.removeVirtualAliases epName) := by
  refine ⟨⟨h.queues, fun aliasName entry hlookup => ?_⟩, fun change hmem => ?_⟩
  · rw [lookup_removeVirtualAliases] at hlookup
    exact h.virtuals aliasName entry (Option.eq_some_of_filter_eq_some hlookup)
  · obtain ⟨entry, -, hchange⟩ := mem_filterMap.mp hmem
    split at hchange
    · cases hchange
    · obtain rfl := Option.some.inj hchange
      simp [Notification.Informs]

theorem Separated.apply (op : Op) (hregular : t.Regular isLocal op) :
    Informed isLocal (t.apply op) := by
  cases op with
  | addUniqueName endpoint =>
    exact ⟨⟨h.queues, h.virtuals⟩, by simp [NameTable.apply, addUniqueName,
      Notification.Informs]⟩
  | removeUniqueName uniqueName => exact h.removeUniqueName uniqueName
  | addAlias aliasName uniqueName flags =>
    exact h.addAlias aliasName uniqueName flags hregular.1 hregular.2
  | removeAlias aliasName ownerName => exact h.removeAlias aliasName ownerName
  | setVirtualAlias aliasName newOwner requester =>
    exact h.setVirtualAlias aliasName newOwner requester hregular
  | removeVirtualAliases epName => exact h.removeVirtualAliases epName
  | invalidate name =>
    refine ⟨?_, by simp [NameTable.apply]⟩
    simp only [NameTable.apply, NameTable.invalidate]
    split
    · exact h
    · exact ⟨h.queues, h.virtuals⟩

end Separation

end NameTable

/-- In every run the notifications about a well-known name lead, one from the
other, from no owner to the owner `GetNameOwner` reports, which is the local one
where there is one. When the table is used regularly, a notification that keeps
the owner reports a change of its name transfer. -/
theorem ownerChanges_chain (isLocal : UniqueName → Bool) (ops : List Op) :
    let s := ops.foldl step (NameTable.empty, [])
    (∀ aliasName, OwnerChain none (about aliasName s.2) (s.1.getNameOwner aliasName)) ∧
      (∀ aliasName primary waiting,
        s.1.aliasNames.lookup aliasName = some (primary :: waiting) →
          s.1.getNameOwner aliasName = some primary.endpointName) ∧
      (Lib.Run.Meets step (fun s op => s.1.Regular isLocal op) (NameTable.empty, []) ops →
        ∀ change ∈ s.2, change.Informs) := by
  intro s
  refine ⟨?_, fun _ _ _ hlookup => NameTable.getNameOwner_of_lookup hlookup, fun hrun => ?_⟩
  · exact Lib.Run.foldl_invariant (fun s : History => NameTable.empty.Announces s.1 s.2)
      (fun s op h => h.trans (s.1.apply_announces op))
      (NameTable.announces_of_owners fun _ => rfl) ops
  · have hstart : NameTable.empty.Separated isLocal := by
      constructor
      · intro aliasName queue hlookup
        simp [NameTable.empty] at hlookup
      · intro aliasName entry hlookup
        simp [NameTable.empty] at hlookup
    have hend := hrun.invariant (NameTable.Informed isLocal)
      (fun s op h hregular => h.append (h.1.apply op hregular)) ⟨hstart, by simp⟩
    exact hend.2

/-- A remote daemon announces a name of its client; then the client can be
reached in a way that transfers all names, and the name is announced again. -/
def reannounced : List Op :=
  [.setVirtualAlias service (some ⟨client '9', 0, [.slsNames]⟩) (client '9'),
   .setVirtualAlias service (some ⟨client '9', 0, [.slsNames, .allNames]⟩) (client '9')]

theorem ownerChanges_chain_reannounced :
    Lib.Run.Meets step (fun s op => s.1.Regular (fun _ => false) op) (NameTable.empty, [])
        reannounced ∧
      ∀ change ∈ (reannounced.foldl step (NameTable.empty, [])).2, change.Informs :=
  ⟨by decide, (ownerChanges_chain (fun _ => false) reannounced).2.2 (by decide)⟩

/-- The notifications of every run form such a chain and each changes the
owner. -/
def EveryNotificationChangesOwner : Prop :=
  ∀ (ops : List Op) (aliasName : WellKnownName),
    let s := ops.foldl step (NameTable.empty, [])
    OwnerChain none (about aliasName s.2) (s.1.getNameOwner aliasName) ∧
      ∀ change ∈ about aliasName s.2, change.oldOwner ≠ change.newOwner

theorem reannounced_keeps_owner : ¬ EveryNotificationChangesOwner := by
  intro hall
  have hchanges := (hall reannounced service).2
  exact hchanges _ (mem_cons_of_mem _ (mem_singleton.mpr rfl)) rfl

/-! ### Routing -/

/-- With the registered endpoints up, a well-known name is routed to its owner. -/
theorem NameTable.findEndpoint_owner {t : NameTable} (hok : t.QueuesOk) (hvalid : t.AllValid)
    (aliasName : WellKnownName) :
    (t.findEndpoint (.wellKnown aliasName)).map Endpoint.uniqueName =
      t.getNameOwner aliasName := by
  cases hlookup : t.aliasNames.lookup aliasName with
  | none =>
    cases hvirtual : t.virtualAliasNames.lookup aliasName <;>
      simp [findEndpoint, getNameOwner, hlookup, hvirtual, Endpoint.uniqueName]
  | some queue =>
    have hqueue := hok aliasName queue hlookup
    obtain ⟨primary, waiting, rfl⟩ := List.exists_cons_of_ne_nil hqueue.nonempty
    have hmem := hqueue.registered primary.endpointName (by simp)
    obtain ⟨entry, hentry⟩ := Option.isSome_iff_exists.mp (AList.lookup_isSome.mpr hmem)
    have hup := hvalid primary.endpointName hmem
    simp only [isValid, findUnique, hentry, Option.map_some, Option.any_some] at hup
    simp [findEndpoint, getNameOwner, hlookup, findUnique, hentry, hup, entry.2]

/-- In every run in which nobody requeues and releases happen while the registered endpoints are
up, the notifications about a well-known name lead to the endpoint that it is routed to. -/
theorem routed_as_announced (ops : List Op)
    (hrun : Lib.Run.Meets step (fun s op => s.1.Orderly op) (NameTable.empty, []) ops)
    (hvalid : (ops.foldl step (NameTable.empty, [])).1.AllValid) (aliasName : WellKnownName) :
    OwnerChain none (about aliasName (ops.foldl step (NameTable.empty, [])).2)
      (((ops.foldl step (NameTable.empty, [])).1.findEndpoint (.wellKnown aliasName)).map
        Endpoint.uniqueName) := by
  have hempty : NameTable.empty.QueuesOk := fun aliasName queue hlookup => by
    simp [NameTable.empty] at hlookup
  have hok := hrun.invariant (fun s => s.1.QueuesOk) (fun _ op h => h.apply op) hempty
  rw [NameTable.findEndpoint_owner hok hvalid]
  exact Lib.Run.foldl_invariant (fun s : History => NameTable.empty.Announces s.1 s.2)
    (fun s op h => h.trans (s.1.apply_announces op))
    (NameTable.announces_of_owners fun _ => rfl) ops aliasName

theorem routed_as_announced_threeClients :
    ((threeClients.foldl step (NameTable.empty, [])).1.findEndpoint (.wellKnown service)).map
        Endpoint.uniqueName = some (client '1') ∧
      OwnerChain none (about service (threeClients.foldl step (NameTable.empty, [])).2)
        (some (client '1')) :=
  ⟨by decide, routed_as_announced threeClients (by decide) (by decide) service⟩

end AllJoyn.Names
