import AllJoyn.Sessionless.RemoteCache

/-!
When the two watermarks of a remote cache tell the truth. Asking for new signals
also moves the watermark of the applied rules, although the rules that were not
applied yet are only asked for with the new change ids. As long as new signals
are asked for only when every rule has been applied, every rule up to the one
watermark was asked for with every change id up to the other.
-/

namespace AllJoyn.Sessionless

open Lib RemoteCache List

variable {cache : RemoteCache} {nextRulesId id : Id} {completed : List Request} {rules : Rules}
  {s : History}

/-- The ids that stay on one side of the circle, also from the start value of
the watermarks on. -/
def idLimit : Nat := 0x7FFFFFFE

/-- The condition on an event, in the state before it. New signals are asked for
only before anything was received or when all rules have been applied, and the
ids stay on one side of the circle. -/
def Careful (s : History) : Event → Prop
  | .found _ changeId => changeId.toNat < idLimit
  | .addRule _ _ => s.1.nextRulesId.toNat < idLimit
  | .alarmTriggered => ∀ cache ∈ s.1.cache, cache.state = .idle →
      pendingWork cache s.1.rules s.1.nextRulesId = .requestNewSignals →
      cache.haveReceived = false ∨ s.1.nextRulesId = cache.appliedRulesId + 1
  | _ => True

instance (s : History) : (event : Event) → Decidable (Careful s event)
  | .found _ changeId => inferInstanceAs (Decidable (changeId.toNat < idLimit))
  | .addRule _ _ => inferInstanceAs (Decidable (s.1.nextRulesId.toNat < idLimit))
  | .alarmTriggered => inferInstanceAs (Decidable (∀ cache ∈ s.1.cache, cache.state = .idle →
      pendingWork cache s.1.rules s.1.nextRulesId = .requestNewSignals →
      cache.haveReceived = false ∨ s.1.nextRulesId = cache.appliedRulesId + 1))
  | .sessionCompleted | .sessionFailed _ | .retriesExhausted => .isTrue trivial

/-! ### Windows -/

theorem isGreater_iff (a b : Id) :
    isGreater a b = true ↔ (a - b).toNat < 0x7FFFFFFF ∧ a ≠ b := by
  rw [isGreater, inWindow, Bool.and_eq_true, SeqNum.inRange_iff]
  simp [halfWindow]

theorem covers_iff (request : Request) (rulesId changeId : Id) :
    request.covers rulesId changeId = true ↔
      (rulesId - request.fromRulesId).toNat < (request.toRulesId - request.fromRulesId).toNat ∧
        (changeId - request.fromChangeId).toNat <
          (request.toChangeId - request.fromChangeId).toNat := by
  rw [Request.covers, Bool.and_eq_true, inWindow, inWindow, SeqNum.inRange_iff,
    SeqNum.inRange_iff]

theorem isGreater_iff_lt {a b : Id} (ha : a.toNat < idLimit) (hb : b.toNat < idLimit) :
    isGreater a b = true ↔ b.toNat < a.toNat := by
  rw [isGreater_iff, ne_eq, ← BitVec.toNat_inj, BitVec.toNat_sub]
  simp only [idLimit] at ha hb
  omega

theorem isGreater_start {a : Id} (ha : a.toNat < idLimit) : isGreater a 0xFFFFFFFF = true := by
  rw [isGreater_iff, ne_eq, ← BitVec.toNat_inj, BitVec.toNat_sub]
  have hstart : (0xFFFFFFFF : Id).toNat = 0xFFFFFFFF := rfl
  simp only [idLimit] at ha
  omega

/-! ### The watermarks -/

def Covered (completed : List Request) (rulesId changeId : Id) : Prop :=
  ∃ request ∈ completed, request.covers rulesId changeId = true

/-- The watermarks are at their start values, or everything up to them was
asked for. -/
structure Settled (cache : RemoteCache) (nextRulesId : Id) (completed : List Request) : Prop where
  changeId_lt : cache.changeId.toNat < idLimit
  watermarks :
    (cache.haveReceived = false ∧ cache.receivedChangeId = 0xFFFFFFFF ∧
      cache.appliedRulesId = 0xFFFFFFFF) ∨
    (cache.haveReceived = true ∧ cache.receivedChangeId.toNat ≤ cache.changeId.toNat ∧
      cache.appliedRulesId.toNat < nextRulesId.toNat ∧
      ∀ rulesId changeId : Id, rulesId.toNat ≤ cache.appliedRulesId.toNat →
        changeId.toNat ≤ cache.receivedChangeId.toNat → Covered completed rulesId changeId)

/-- More rules and later change ids leave the watermarks where they are. -/
theorem Settled.mono {cache' : RemoteCache} {nextRulesId' : Id}
    (h : Settled cache nextRulesId completed) (hhave : cache'.haveReceived = cache.haveReceived)
    (hreceived : cache'.receivedChangeId = cache.receivedChangeId)
    (happlied : cache'.appliedRulesId = cache.appliedRulesId)
    (hchange : cache.changeId.toNat ≤ cache'.changeId.toNat)
    (hlimit : cache'.changeId.toNat < idLimit) (hnext : nextRulesId.toNat ≤ nextRulesId'.toNat) :
    Settled cache' nextRulesId' completed := by
  refine ⟨hlimit, ?_⟩
  rw [hhave, hreceived, happlied]
  obtain hstart | ⟨hhad, hle, hlt, hcovered⟩ := h.watermarks
  · exact .inl hstart
  · exact .inr ⟨hhad, hle.trans hchange, hlt.trans_le hnext, hcovered⟩

theorem settled_new (version : Nat) (iface : List Char) (changeId nextRulesId : Id)
    (completed : List Request) (hlimit : changeId.toNat < idLimit) :
    Settled (.new version iface changeId) nextRulesId completed :=
  ⟨hlimit, .inl ⟨rfl, rfl, rfl⟩⟩

/-- The invariant of a run: the watermarks are true, and the request in progress
keeps them true when it is completed. -/
structure Inv (s : History) : Prop where
  nextRulesId_le : s.1.nextRulesId.toNat ≤ idLimit
  rules_lt : ∀ entry ∈ s.1.rules, entry.2.id.toNat < s.1.nextRulesId.toNat
  version : ∀ cache, s.1.cache = some cache → cache.version ≠ 0
  settled : ∀ cache, s.1.cache = some cache → Settled cache s.1.nextRulesId s.2
  working : ∀ cache, s.1.cache = some cache → cache.state = .inProgress →
    Settled cache.completed s.1.nextRulesId (cache.work :: s.2)

theorem exists_of_isMatch {fromRulesId toRulesId : Id} (hversion : cache.version ≠ 0)
    (hmatch : isMatch cache rules fromRulesId toRulesId = true) :
    ∃ entry ∈ rules, entry.2.iface ∈ cache.ifaces ∧
      (entry.2.id - fromRulesId).toNat < (toRulesId - fromRulesId).toNat := by
  rw [isMatch, Bool.or_eq_true, beq_iff_eq, any_eq_true] at hmatch
  obtain hzero | ⟨entry, hmem, hentry⟩ := hmatch
  · exact absurd hzero hversion
  · rw [Bool.and_eq_true, inWindow, SeqNum.inRange_iff, contains_iff_mem] at hentry
    exact ⟨entry, hmem, hentry.2, hentry.1⟩

theorem not_isMatch {fromRulesId toRulesId : Id}
    (hmatch : isMatch cache rules fromRulesId toRulesId ≠ true)
    (entry : List Char × TimestampedRule) (hmem : entry ∈ rules)
    (hiface : entry.2.iface ∈ cache.ifaces) :
    ¬ (entry.2.id - fromRulesId).toNat < (toRulesId - fromRulesId).toNat := by
  intro hwindow
  apply hmatch
  rw [isMatch, Bool.or_eq_true, any_eq_true]
  refine .inr ⟨entry, hmem, ?_⟩
  rw [Bool.and_eq_true, inWindow, SeqNum.inRange_iff, contains_iff_mem]
  exact ⟨hwindow, hiface⟩

/-! ### Starting a request -/

theorem completed_newSignals (hgreater : isGreater cache.changeId cache.receivedChangeId = true)
    (hwork : cache.work = cache.request nextRulesId false) :
    cache.completed.haveReceived = true ∧ cache.completed.receivedChangeId = cache.changeId ∧
      cache.completed.appliedRulesId = if isGreater (nextRulesId - 1) cache.appliedRulesId
        then nextRulesId - 1 else cache.appliedRulesId := by
  have hback : cache.work.toChangeId - 1 = cache.changeId := by
    rw [hwork]
    exact BitVec.add_sub_cancel _ _
  have hnext : cache.work.toRulesId = nextRulesId := by
    rw [hwork]
    rfl
  simp only [completed, hback, hgreater, hnext, Bool.or_true, if_true, true_and]

theorem completed_newRules (hgreater : isGreater (nextRulesId - 1) cache.appliedRulesId = true)
    (hwork : cache.work = cache.request nextRulesId true) :
    cache.completed.haveReceived = cache.haveReceived ∧
      cache.completed.receivedChangeId = cache.receivedChangeId ∧
      cache.completed.appliedRulesId = nextRulesId - 1 := by
  have hback : cache.work.toChangeId - 1 = cache.receivedChangeId := by
    rw [hwork]
    exact BitVec.add_sub_cancel _ _
  have hnext : cache.work.toRulesId = nextRulesId := by
    rw [hwork]
    rfl
  have hsame : isGreater cache.receivedChangeId cache.receivedChangeId = false := by
    simp [isGreater]
  simp only [completed, hback, hgreater, hnext, hsame, Bool.or_false, if_true,
    Bool.false_eq_true, if_false, and_self]

theorem toNat_sub_one (id : Id) (hpos : 0 < id.toNat) : (id - 1).toNat = id.toNat - 1 := by
  have hone : (1 : Id).toNat = 1 := rfl
  rw [BitVec.toNat_sub]
  omega

theorem half_window {last : Id} (hlast : last.toNat < idLimit) (hid : id.toNat ≤ last.toNat) :
    (id - (last - halfWindow)).toNat < (last + 1 - (last - halfWindow)).toNat := by
  have hone : (1 : Id).toNat = 1 := rfl
  have hhalf : halfWindow.toNat = 0x7FFFFFFF := rfl
  simp only [idLimit] at hlast
  simp only [BitVec.toNat_sub, BitVec.toNat_add]
  omega

theorem next_window {last next : Id} (hnext : next.toNat ≤ idLimit) (hlow : last.toNat < id.toNat)
    (hhigh : id.toNat < next.toNat) : (id - (last + 1)).toNat < (next - (last + 1)).toNat := by
  have hone : (1 : Id).toNat = 1 := rfl
  rw [BitVec.toNat_sub, BitVec.toNat_sub, BitVec.toNat_add]
  omega

theorem all_rules_window {applied next : Id} (hnext : next.toNat ≤ idLimit)
    (happlied : applied = 0xFFFFFFFF ∨ applied.toNat < next.toNat) (hid : id.toNat < next.toNat) :
    (id - (applied - halfWindow)).toNat < (next - (applied - halfWindow)).toNat := by
  have hhalf : halfWindow.toNat = 0x7FFFFFFF := rfl
  simp only [idLimit] at hnext
  obtain rfl | hlt := happlied
  · have hmax : (0xFFFFFFFF : Id).toNat = 0xFFFFFFFF := rfl
    simp only [BitVec.toNat_sub]
    omega
  · simp only [BitVec.toNat_sub]
    omega

/-- The first request asks for every rule with every change id. -/
theorem settled_first (hlimit : cache.changeId.toNat < idLimit)
    (hreceived : cache.receivedChangeId = 0xFFFFFFFF)
    (happlied : cache.appliedRulesId = 0xFFFFFFFF) (hpos : 0 < nextRulesId.toNat)
    (hnext : nextRulesId.toNat ≤ idLimit) (hwork : cache.work = cache.request nextRulesId false) :
    Settled cache.completed nextRulesId (cache.work :: completed) := by
  have hlast := toNat_sub_one _ hpos
  have hgreater : isGreater cache.changeId cache.receivedChangeId = true := by
    rw [hreceived]
    exact isGreater_start hlimit
  obtain ⟨hhave', hreceived', happlied'⟩ := completed_newSignals hgreater hwork
  rw [happlied, isGreater_start (by omega), if_pos rfl] at happlied'
  refine ⟨hlimit, .inr ⟨hhave', ?_, ?_, ?_⟩⟩
  · rw [hreceived']
    exact le_rfl
  · rw [happlied']
    omega
  · rw [hreceived', happlied']
    intro rulesId changeId hrulesId hchangeId
    refine ⟨cache.work, mem_cons_self, ?_⟩
    rw [covers_iff, hwork]
    simp only [request, Bool.false_eq_true, if_false, hreceived, happlied]
    have hzero : (0xFFFFFFFF + 1 : Id).toNat = 0 := rfl
    have hone : (1 : Id).toNat = 1 := rfl
    constructor
    · exact all_rules_window hnext (.inl rfl) (by omega)
    · simp only [idLimit] at hlimit
      rw [BitVec.toNat_sub, BitVec.toNat_sub, hzero, BitVec.toNat_add]
      omega

/-- New signals are asked for after all rules have been applied. -/
theorem settled_newSignals (h : Settled cache nextRulesId completed)
    (hhave : cache.haveReceived = true) (hnext : nextRulesId.toNat ≤ idLimit)
    (hall : nextRulesId = cache.appliedRulesId + 1)
    (hgreater : isGreater cache.changeId cache.receivedChangeId = true)
    (hwork : cache.work = cache.request nextRulesId false) :
    Settled cache.completed nextRulesId (cache.work :: completed) := by
  obtain ⟨hstart, -⟩ | ⟨-, hle, hlt, hcovered⟩ := h.watermarks
  · rw [hstart] at hhave
    cases hhave
  have hsame : isGreater cache.appliedRulesId cache.appliedRulesId = false := by
    simp [isGreater]
  obtain ⟨hhave', hreceived', happlied'⟩ := completed_newSignals hgreater hwork
  rw [hall, BitVec.add_sub_cancel, hsame, if_neg (by simp)] at happlied'
  refine ⟨h.changeId_lt, .inr ⟨hhave', ?_, ?_, ?_⟩⟩
  · rw [hreceived']
    exact le_rfl
  · rw [happlied']
    exact hlt
  · rw [hreceived', happlied']
    intro rulesId changeId hrulesId hchangeId
    by_cases hold : changeId.toNat ≤ cache.receivedChangeId.toNat
    · obtain ⟨request, hmem, hcovers⟩ := hcovered rulesId changeId hrulesId hold
      exact ⟨request, mem_cons_of_mem _ hmem, hcovers⟩
    · refine ⟨cache.work, mem_cons_self, ?_⟩
      rw [covers_iff, hwork]
      simp only [request, Bool.false_eq_true, if_false]
      have hlimit := h.changeId_lt
      have hone : (1 : Id).toNat = 1 := rfl
      have hafter : (cache.changeId + 1).toNat = cache.changeId.toNat + 1 := by
        simp only [idLimit] at hlimit
        rw [BitVec.toNat_add]
        omega
      constructor
      · exact all_rules_window hnext (.inr hlt) (by omega)
      · exact next_window (by omega) (by omega) (by omega)

/-- New rules are asked for with all the change ids that were received. -/
theorem settled_newRules (h : Settled cache nextRulesId completed)
    (hhave : cache.haveReceived = true) (hnext : nextRulesId.toNat ≤ idLimit)
    (hgreater : isGreater (nextRulesId - 1) cache.appliedRulesId = true)
    (hwork : cache.work = cache.request nextRulesId true) :
    Settled cache.completed nextRulesId (cache.work :: completed) := by
  obtain ⟨hstart, -⟩ | ⟨-, hle, hlt, hcovered⟩ := h.watermarks
  · rw [hstart] at hhave
    cases hhave
  have hlimit := h.changeId_lt
  have hlast : (nextRulesId - 1).toNat = nextRulesId.toNat - 1 := toNat_sub_one _ (by omega)
  obtain ⟨hhave', hreceived', happlied'⟩ := completed_newRules hgreater hwork
  refine ⟨hlimit, .inr ⟨hhave'.trans hhave, ?_, ?_, ?_⟩⟩
  · rw [hreceived']
    exact hle
  · rw [happlied']
    omega
  · rw [hreceived', happlied']
    intro rulesId changeId hrulesId hchangeId
    by_cases hold : rulesId.toNat ≤ cache.appliedRulesId.toNat
    · obtain ⟨request, hmem, hcovers⟩ := hcovered rulesId changeId hold hchangeId
      exact ⟨request, mem_cons_of_mem _ hmem, hcovers⟩
    · refine ⟨cache.work, mem_cons_self, ?_⟩
      rw [covers_iff, hwork]
      simp only [request, if_true]
      exact ⟨next_window hnext (by omega) (by omega), half_window (by omega) hchangeId⟩

/-! ### Runs -/

/-- A rule of an interface of the cache that was in no request: the work is not done. -/
theorem Inv.not_missed (h : Inv s) : ¬ Missed s := by
  rintro ⟨cache, hcache, hnone, entry, hmem, -, hiface, changeId, hchangeId, huncovered⟩
  have hsettled := h.settled cache hcache
  have hlimit := hsettled.changeId_lt
  have hnext := h.nextRulesId_le
  have hid := h.rules_lt entry hmem
  have hchange : changeId.toNat ≤ cache.changeId.toNat := hchangeId
  rw [pendingWork] at hnone
  split at hnone
  · cases hnone
  rename_i hrules
  split at hnone
  · cases hnone
  rename_i hsignals
  rw [Bool.and_eq_true, not_and] at hsignals
  obtain ⟨-, hreceived, happlied⟩ | ⟨hhave, hle, hlt, hcovered⟩ := hsettled.watermarks
  · -- nothing was received: every rule of an interface of the cache matches
    rw [hreceived, happlied] at hsignals
    have hnot := not_isMatch (hsignals (isGreater_start hlimit)) entry hmem hiface
    exact hnot (all_rules_window hnext (.inl rfl) hid)
  · have happlied : entry.2.id.toNat ≤ cache.appliedRulesId.toNat := by
      by_contra hbeyond
      have hlast := toNat_sub_one s.1.nextRulesId (by omega)
      have hgreater : isGreater (s.1.nextRulesId - 1) cache.appliedRulesId = true := by
        rw [isGreater_iff_lt (by omega) (by omega)]
        omega
      rw [hhave, hgreater] at hrules
      apply not_isMatch hrules entry hmem hiface
      exact next_window hnext (by omega) hid
    have hreceived : cache.changeId.toNat ≤ cache.receivedChangeId.toNat := by
      by_contra hbeyond
      have hgreater : isGreater cache.changeId cache.receivedChangeId = true := by
        rw [isGreater_iff_lt hlimit (by omega)]
        omega
      apply not_isMatch (hsignals hgreater) entry hmem hiface
      exact all_rules_window hnext (.inr hlt) hid
    obtain ⟨request, hrequest, hcovers⟩ :=
      hcovered entry.2.id changeId happlied (hchange.trans hreceived)
    rw [huncovered request hrequest] at hcovers
    cases hcovers

theorem settled_request (h : Settled cache nextRulesId completed) (hversion : cache.version ≠ 0)
    (hnext : nextRulesId.toNat ≤ idLimit)
    (hrules : ∀ entry ∈ rules, entry.2.id.toNat < nextRulesId.toNat) (newRules : Bool)
    (hpending : pendingWork cache rules nextRulesId =
      if newRules then .applyNewRules else .requestNewSignals) (hcareful : newRules = false →
      cache.haveReceived = false ∨ nextRulesId = cache.appliedRulesId + 1)
    (hwork : cache.work = cache.request nextRulesId newRules) :
    Settled cache.completed nextRulesId (cache.work :: completed) := by
  rw [pendingWork] at hpending
  cases newRules with
  | true =>
    split at hpending
    · rename_i hwhen
      rw [Bool.and_eq_true, Bool.and_eq_true] at hwhen
      exact settled_newRules h hwhen.1.1 hnext hwhen.1.2 hwork
    · split at hpending <;> cases hpending
  | false =>
    split at hpending
    · cases hpending
    · split at hpending
      · rename_i hwhen
        rw [Bool.and_eq_true] at hwhen
        obtain ⟨-, hreceived, happlied⟩ | ⟨hhave, -⟩ := h.watermarks
        · obtain ⟨entry, hmem, -⟩ := exists_of_isMatch hversion hwhen.2
          have hid := hrules entry hmem
          exact settled_first h.changeId_lt hreceived happlied (by omega) hnext hwork
        · obtain hfresh | hall := hcareful rfl
          · rw [hfresh] at hhave
            cases hhave
          · exact settled_newSignals h hhave hnext hall hwhen.1 hwork
      · cases hpending

theorem Inv.initial : Inv initial :=
  ⟨Nat.zero_le _, by simp [Sessionless.initial], by simp [Sessionless.initial],
    by simp [Sessionless.initial], by simp [Sessionless.initial]⟩

theorem Inv.with_cache (h : Inv s) (cache : RemoteCache) (completed : List Request)
    (hversion : cache.version ≠ 0) (hsettled : Settled cache s.1.nextRulesId completed)
    (hworking : cache.state = .inProgress →
      Settled cache.completed s.1.nextRulesId (cache.work :: completed)) :
    Inv ({ s.1 with cache := some cache }, completed) := by
  refine ⟨h.nextRulesId_le, h.rules_lt, ?_, ?_, ?_⟩
  · rintro _ ⟨⟩
    exact hversion
  · rintro _ ⟨⟩
    exact hsettled
  · rintro _ ⟨⟩
    exact hworking

theorem Inv.without_cache (h : Inv s) : Inv ({ s.1 with cache := none }, s.2) :=
  ⟨h.nextRulesId_le, h.rules_lt, by simp, by simp, by simp⟩

theorem found_changeId (cache : RemoteCache) (iface : List Char) (changeId : Id)
    (hlimit : cache.changeId.toNat < idLimit) (hnew : changeId.toNat < idLimit) :
    cache.changeId.toNat ≤ (cache.found iface changeId).changeId.toNat ∧
      (cache.found iface changeId).changeId.toNat < idLimit := by
  simp only [found]
  split
  · rename_i hgreater
    rw [isGreater_iff_lt hnew hlimit] at hgreater
    omega
  · omega

theorem Settled.found (h : Settled cache nextRulesId completed) (iface : List Char)
    (changeId : Id) (hlimit : changeId.toNat < idLimit) :
    Settled (cache.found iface changeId) nextRulesId completed := by
  obtain ⟨hforward, hbelow⟩ := found_changeId cache iface changeId h.changeId_lt hlimit
  exact h.mono rfl rfl rfl hforward hbelow le_rfl

/-- An advertisement does not interfere with the request in progress. -/
theorem completed_found (cache : RemoteCache) (iface : List Char) (changeId : Id) :
    (cache.found iface changeId).completed = cache.completed.found iface changeId := by
  simp only [completed, found]
  congr

theorem Inv.found (h : Inv s) (version : Nat) (hversion : version ≠ 0) (iface : List Char)
    (changeId : Id) (hlimit : changeId.toNat < idLimit) :
    Inv (s.1.found version iface changeId, s.2) := by
  rw [Obj.found]
  cases hcache : s.1.cache with
  | none =>
    refine h.with_cache (.new version iface changeId) s.2 hversion
      (settled_new version iface changeId _ _ hlimit) ?_
    rintro ⟨⟩
  | some cache =>
    refine h.with_cache (cache.found iface changeId) s.2 (h.version cache hcache)
      ((h.settled cache hcache).found iface changeId hlimit) ?_
    intro hstate
    rw [completed_found]
    exact (h.working cache hcache hstate).found iface changeId hlimit

theorem Inv.addRule (h : Inv s) (epName : List Char) (rule : Rule)
    (hlimit : s.1.nextRulesId.toNat < idLimit) : Inv (s.1.addRule epName rule, s.2) := by
  rw [Obj.addRule]
  split
  · rename_i entry hfind
    refine ⟨h.nextRulesId_le, ?_, h.version, h.settled, h.working⟩
    intro other hmem
    obtain hold | hnew := mem_append.1 hmem
    · exact h.rules_lt other hold
    · rw [mem_singleton.1 hnew]
      exact h.rules_lt entry (List.mem_of_find?_eq_some hfind)
  · have hone : (1 : Id).toNat = 1 := rfl
    have hnext : (s.1.nextRulesId + 1).toNat = s.1.nextRulesId.toNat + 1 := by
      simp only [idLimit] at hlimit
      rw [BitVec.toNat_add]
      omega
    refine ⟨by simp only [hnext]; omega, ?_, h.version, ?_, ?_⟩
    · intro other hmem
      simp only [hnext]
      obtain hold | hnew := mem_append.1 hmem
      · have hlt := h.rules_lt other hold
        omega
      · rw [mem_singleton.1 hnew]
        exact Nat.lt_succ_self _
    · intro cache hcache
      have hsettled := h.settled cache hcache
      exact hsettled.mono rfl rfl rfl le_rfl hsettled.changeId_lt (by simp only [hnext]; omega)
    · intro cache hcache hstate
      have hsettled := h.working cache hcache hstate
      exact hsettled.mono rfl rfl rfl le_rfl hsettled.changeId_lt (by simp only [hnext]; omega)

theorem Inv.alarmTriggered (h : Inv s) (hcareful : Careful s .alarmTriggered) :
    Inv (s.1.alarmTriggered, s.2) := by
  rw [Obj.alarmTriggered]
  cases hcache : s.1.cache with
  | none => exact h
  | some cache =>
    have hsettled := h.settled cache hcache
    have hversion := h.version cache hcache
    -- a started request only changes what the watermarks do not depend on
    have hstart : ∀ newRules : Bool, cache.state = .idle → pendingWork cache s.1.rules s.1.nextRulesId =
          (if newRules then .applyNewRules else .requestNewSignals) →
        Inv ({ s.1 with cache := some { cache with
          state := .inProgress, work := cache.request s.1.nextRulesId newRules } }, s.2) := by
      intro newRules hidle hpending
      let started : RemoteCache := { cache with
        state := .inProgress, work := cache.request s.1.nextRulesId newRules }
      have hstarted : Settled started s.1.nextRulesId s.2 :=
        hsettled.mono rfl rfl rfl le_rfl hsettled.changeId_lt le_rfl
      refine h.with_cache started s.2 hversion hstarted fun _ => ?_
      apply settled_request hstarted hversion h.nextRulesId_le h.rules_lt newRules hpending ?_ rfl
      rintro rfl
      exact hcareful cache hcache hidle hpending
    simp only
    split
    · rename_i hidle
      cases hpending : pendingWork cache s.1.rules s.1.nextRulesId with
      | none => exact h
      | applyNewRules => exact hstart true hidle hpending
      | requestNewSignals => exact hstart false hidle hpending
    · exact h

theorem Inv.step (h : Inv s) (event : Event) (hcareful : Careful s event) :
    Inv (step 1 s event) := by
  cases event with
  | found iface changeId => exact h.found 1 (by decide) iface changeId hcareful
  | addRule epName rule => exact h.addRule epName rule hcareful
  | alarmTriggered => exact h.alarmTriggered hcareful
  | sessionCompleted =>
    rw [Sessionless.step]
    cases hcache : s.1.cache with
    | none => exact h
    | some cache =>
      simp only
      split
      · rename_i hstate
        refine h.with_cache cache.completed (cache.work :: s.2) (h.version cache hcache)
          (h.working cache hcache hstate) ?_
        rintro ⟨⟩
      · exact h
  | sessionFailed exhausted =>
    rw [Sessionless.step]
    cases hcache : s.1.cache with
    | none => exact h
    | some cache =>
      simp only
      split
      · cases exhausted with
        | true => exact h.without_cache
        | false =>
          have hsettled := h.settled cache hcache
          refine h.with_cache { cache with state := .idle } s.2 (h.version cache hcache) ?_ ?_
          · exact hsettled.mono rfl rfl rfl le_rfl hsettled.changeId_lt le_rfl
          · rintro ⟨⟩
      · exact h
  | retriesExhausted =>
    rw [Sessionless.step]
    cases hcache : s.1.cache with
    | none => exact h
    | some cache =>
      simp only
      split
      · exact h.without_cache
      · exact h

/-- In every run in which new signals are asked for only before anything was
received or when all rules have been applied, nothing that is advertised is
missed for a rule. -/
theorem careful_never_missed (events : List Event)
    (hcareful : Lib.Run.Meets (step 1) Careful initial events) :
    ¬ Missed (events.foldl (step 1) initial) := by
  have hinv := hcareful.invariant Inv (fun s event hs hok => hs.step event hok) Inv.initial
  exact hinv.not_missed

def sensor : List Char := "org.acme.Sensor".toList

def about : List Char := "org.alljoyn.About".toList

/-- A rule for the signals of an interface. -/
def signalRule (iface : List Char) : Rule :=
  ⟨.signal, [], iface, [], [], [], [], []⟩

/-- Two rules and two change ids, with a session for each. -/
def carefulRun : List Event :=
  [.found about 5, .addRule ":1.2".toList (signalRule about), .alarmTriggered, .sessionFailed false,
    .alarmTriggered, .sessionCompleted, .addRule ":1.3".toList (signalRule about), .alarmTriggered,
    .sessionCompleted, .found sensor 6, .alarmTriggered, .sessionCompleted]

theorem carefulRun_never_missed :
    Lib.Run.Meets (step 1) Careful initial carefulRun ∧
      ¬ Missed (carefulRun.foldl (step 1) initial) := by
  have hcareful : Lib.Run.Meets (step 1) Careful initial carefulRun := by decide +kernel
  exact ⟨hcareful, careful_never_missed carefulRun hcareful⟩

/-- The signals of the sensor are advertised only after the rule for them was
applied to newer signals. -/
def lateAdvertisement : List Event :=
  [.found about 5, .addRule ":1.2".toList (signalRule about), .alarmTriggered, .sessionCompleted,
    .addRule ":1.2".toList (signalRule sensor), .found about 6, .alarmTriggered, .sessionCompleted,
    .found sensor 3]

/-- Where the run above ends. -/
def lateCache : RemoteCache :=
  { version := 1
    ifaces := [about, sensor]
    changeId := 6
    haveReceived := true
    receivedChangeId := 6
    appliedRulesId := 1
    work := ⟨6, 7, 0x80000001, 2⟩
    state := .idle }

/-- No request asks for the rule of the sensor with change id 3. -/
theorem lateAdvertisement_missed : Missed (lateAdvertisement.foldl (step 1) initial) := by
  have hend : lateAdvertisement.foldl (step 1) initial =
      (⟨[(":1.2".toList, ⟨signalRule about, 0⟩), (":1.2".toList, ⟨signalRule sensor, 1⟩)], 2,
        some lateCache⟩, [⟨6, 7, 0x80000001, 2⟩, ⟨0, 6, 0x80000000, 1⟩]) := by
    decide +kernel
  rw [hend]
  refine ⟨lateCache, rfl, by decide +kernel, (":1.2".toList, ⟨signalRule sensor, 1⟩), by simp,
    by decide, by decide, 3, by decide, ?_⟩
  decide +kernel

end AllJoyn.Sessionless
