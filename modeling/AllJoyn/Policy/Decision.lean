import AllJoyn.Lib.Reorder
import AllJoyn.Policy.Authorize

/-!
The decision a policy stands for, stated without an order, and how far the
nested loops of `IsAuthorized` compute it. The loops agree with it except for
the deny scan, which is made only for an access control list whose first entry
that qualifies the peer is the peer's own public key.
-/

namespace AllJoyn.Policy

/-- The member has a name and it matches the one requested. -/
def nameMatches (request : Request) (m : Member) : Bool :=
  m.memberName ≠ [] ∧ (m.memberName = request.mbrName ∨ matchesPrefix request.mbrName m.memberName)

def typeMatches (request : Request) (m : Member) : Bool :=
  m.memberType = .notSpecified ∨ request.mbrType = m.memberType

/-- The member grants the request. A request for all properties is granted by a
wildcard for properties, and by any member when the call is a received one. -/
def memberAllows (request : Request) (requiredAuth : BitVec 8) (m : Member) : Bool :=
  if request.mbrName = [] then
    (m.memberName = star ∧ (m.memberType = .property ∨ m.memberType = .notSpecified) ∧
        isActionAllowed m.actionMask requiredAuth) ∨
      (m.memberName ≠ [] ∧ m.memberName ≠ star ∧ request.outgoing = false)
  else
    nameMatches request m ∧ typeMatches request m ∧ isActionAllowed m.actionMask requiredAuth

/-- The member is an explicit deny for the request: a wildcard without actions. -/
def memberDenies (request : Request) (m : Member) : Bool :=
  m.memberName = star ∧ isActionDenied m.actionMask ∧
    (request.mbrName = [] ∨ (nameMatches request m ∧ typeMatches request m))

/-- The rule speaks about the object, the interface and the kind of request. -/
def ruleApplies (request : Request) (rule : Rule) : Bool :=
  rule.objPath ≠ [] ∧ rule.interfaceName ≠ [] ∧
    (rule.objPath = request.objPath ∨ matchesPrefix request.objPath rule.objPath) ∧
    (rule.interfaceName = request.iName ∨ matchesPrefix request.iName rule.interfaceName) ∧
    (request.mbrName ≠ [] ∨ request.propertyRequest)

def ruleAllows (request : Request) (requiredAuth : BitVec 8) (rule : Rule) : Bool :=
  ruleApplies request rule && rule.members.any (memberAllows request requiredAuth)

def ruleDenies (request : Request) (rule : Rule) : Bool :=
  ruleApplies request rule && (rule.objPath = star && rule.interfaceName = star) &&
    rule.members.any (memberDenies request)

/-- The entry qualifies the peer by something else than its own public key. -/
def qualifiesOtherwise (credentials : Credentials) (peer : Peer) : Bool :=
  peer.type = .all ||
    (credentials.trustedPeer &&
      (peer.type = .anyTrusted ||
        (credentials.publicKey.isSome &&
          ((peer.type = .fromCertificateAuthority &&
              peer.keyInfo.any (·.publicKey ∈ credentials.issuerChain)) ||
            (peer.type = .withMembership && holdsMembership credentials peer)))))

def qualifies (credentials : Credentials) (peer : Peer) : Bool :=
  namesKey credentials peer || qualifiesOtherwise credentials peer

/-- What a member loop returns: a deny that is looked for ends it, and otherwise
the members that allow count. -/
def scanResult (scanForDenied denied allowed : Bool) : Bool × Bool :=
  if scanForDenied && denied then (false, true) else (allowed, false)

/-- A member loop. Without a deny scan it may stop once it has allowed the request. -/
theorem scan_eq {scanForDenied : Bool} (denies allows : Member → Bool)
    {loop : List Member → Bool → Bool × Bool} (hnil : ∀ allowed, loop [] allowed = (allowed, false))
    (hcons : ∀ m rest allowed, (scanForDenied = false → loop rest true = (true, false)) →
      loop (m :: rest) allowed = if scanForDenied && denies m then (false, true)
        else loop rest (allowed || allows m))
    (members : List Member) (allowed : Bool) :
    loop members allowed =
      scanResult scanForDenied (members.any denies) (allowed || members.any allows) := by
  induction members generalizing allowed with
  | nil => simp [hnil, scanResult]
  | cons m rest ih =>
    have htrue (hscan : scanForDenied = false) : loop rest true = (true, false) := by
      simp [ih, scanResult, hscan]
    rw [hcons m rest allowed htrue, ih]
    cases scanForDenied <;> cases hdenies : denies m <;>
      simp [scanResult, hdenies, Bool.or_assoc]

variable {α : Type*} {acl : Acl}

/-- A loop that stops at an element that denies, and counts those that allow. -/
theorem loop_spec (denies allows : α → Bool) {loop : List α → Bool → Bool × Bool}
    (hnil : ∀ allowed, loop [] allowed = (allowed, false))
    (hdenied : ∀ a rest allowed, denies a = true → (loop (a :: rest) allowed).2 = true)
    (hnext : ∀ a rest allowed, denies a = false →
      loop (a :: rest) allowed = loop rest (allowed || allows a)) (elements : List α)
    (allowed : Bool) :
    (loop elements allowed).2 = elements.any denies ∧
      (elements.any denies = false →
        (loop elements allowed).1 = (allowed || elements.any allows)) := by
  induction elements generalizing allowed with
  | nil => simp [hnil]
  | cons a rest ih =>
    cases hdenies : denies a with
    | true => simp [hdenied a rest allowed hdenies, hdenies]
    | false =>
      rw [hnext a rest allowed hdenies]
      simpa [hdenies, Bool.or_assoc] using ih (allowed || allows a)

/-- Without a deny scan a loop may stop at the first member that allows. -/
theorem early_exit (scanForDenied allowed : Bool) (next : Bool → Bool × Bool)
    (hnext : scanForDenied = false → next true = (true, false)) :
    (if (allowed && !scanForDenied) = true then (allowed, false) else next allowed) =
      next allowed := by
  cases scanForDenied with
  | true => simp
  | false =>
    cases allowed with
    | true => simp [hnext rfl]
    | false => simp

section Members

variable (request : Request) (requiredAuth : BitVec 8) (scanForDenied : Bool)

theorem getAllLoop_eq (hname : request.mbrName = []) (members : List Member) (allowed : Bool) :
    getAllLoop requiredAuth scanForDenied request.outgoing members allowed =
      scanResult scanForDenied (members.any (memberDenies request))
        (allowed || members.any (memberAllows request requiredAuth)) := by
  refine scan_eq _ _ (fun _ => rfl) (fun m rest allowed htrue => ?_) members allowed
  have hexit := fun allowed => early_exit scanForDenied allowed _ htrue
  simp only [getAllLoop, hexit, memberDenies, memberAllows, hname]
  by_cases hempty : m.memberName = []
  · have hstar : ¬ ([] : List UInt8) = star := by decide
    simp [hempty, hstar]
  by_cases hstar : m.memberName = star
  · have hnil : ¬ star = [] := by decide
    by_cases hkind : m.memberType = .property ∨ m.memberType = .notSpecified
    · have hother : ¬ (m.memberType ≠ .property ∧ m.memberType ≠ .notSpecified) := by tauto
      simp [hstar, hnil, hkind, hother]
    · have hother : m.memberType ≠ .property ∧ m.memberType ≠ .notSpecified := by tauto
      simp [hstar, hnil, hother.1, hother.2]
  · cases request.outgoing <;> simp [hempty, hstar]

theorem namedLoop_eq (hname : request.mbrName ≠ []) (members : List Member) (allowed : Bool) :
    namedLoop request requiredAuth scanForDenied members allowed =
      scanResult scanForDenied (members.any (memberDenies request))
        (allowed || members.any (memberAllows request requiredAuth)) := by
  refine scan_eq _ _ (fun _ => rfl) (fun m rest allowed htrue => ?_) members allowed
  have hexit := fun allowed => early_exit scanForDenied allowed _ htrue
  simp only [namedLoop, hexit, memberDenies, memberAllows, hname]
  cases hmatch : nameMatches request m with
  | false =>
    by_cases hempty : m.memberName = []
    · simp [hempty]
    · have hother : ¬ (m.memberName = request.mbrName ∨
          matchesPrefix request.mbrName m.memberName) := by
        simpa [nameMatches, hempty] using hmatch
      simp [hother]
  | true =>
    have hboth : m.memberName ≠ [] ∧ (m.memberName = request.mbrName ∨
        matchesPrefix request.mbrName m.memberName) := by
      simpa [nameMatches] using hmatch
    cases htype : typeMatches request m with
    | false =>
      have hother : m.memberType ≠ .notSpecified ∧ request.mbrType ≠ m.memberType := by
        simpa [typeMatches] using htype
      simp [hother]
    | true =>
      have hother : ¬ (m.memberType ≠ .notSpecified ∧ request.mbrType ≠ m.memberType) := by
        simp only [typeMatches, decide_eq_true_eq] at htype
        tauto
      simp only [hboth.1, hboth.2, if_neg hother]
      simp

theorem isRuleMatched_eq (rule : Rule) :
    isRuleMatched rule request requiredAuth scanForDenied request.outgoing =
      scanResult scanForDenied (ruleDenies request rule) (ruleAllows request requiredAuth rule) := by
  cases happlies : ruleApplies request rule with
  | false =>
    have hout : isRuleMatched rule request requiredAuth scanForDenied request.outgoing =
        (false, false) := by
      unfold isRuleMatched
      simp only [ruleApplies, decide_eq_false_iff_not] at happlies
      split_ifs with hmembers hpath hinterface hobject hname hmember hproperty
      · rfl
      · rfl
      · rfl
      · rfl
      · exact absurd
          ⟨hpath, hinterface, hobject, hname, Or.inr (by simpa using hproperty)⟩ happlies
      · exact absurd ⟨hpath, hinterface, hobject, hname, Or.inl hmember⟩ happlies
      · rfl
      · rfl
    simp [hout, ruleDenies, ruleAllows, happlies, scanResult]
  | true =>
    have happ := happlies
    simp only [ruleApplies, decide_eq_true_eq] at happ
    obtain ⟨hpath, hinterface, hobject, hname, hkind⟩ := happ
    have hwild : ∀ denied allowed : Bool,
        scanResult (scanForDenied && rule.objPath = star && rule.interfaceName = star)
            denied allowed =
          scanResult scanForDenied
            ((rule.objPath = star && rule.interfaceName = star) && denied) allowed := by
      intro denied allowed
      simp only [scanResult, Bool.and_assoc]
    unfold isRuleMatched
    rw [if_neg hpath, if_neg hinterface, if_neg (not_not.mpr hobject),
      if_neg (not_not.mpr hname)]
    by_cases hmembers : rule.members = []
    · simp [hmembers, ruleDenies, ruleAllows, scanResult]
    · rw [if_neg hmembers]
      by_cases hmember : request.mbrName = []
      · have hproperty : ¬ request.propertyRequest = false := by
          rcases hkind with hnamed | hproperty
          · exact absurd hmember hnamed
          · simp [hproperty]
        simp only [hmember, if_neg hproperty]
        rw [getAllLoop_eq request requiredAuth _ hmember, hwild]
        simp [ruleDenies, ruleAllows, happlies]
      · simp only [hmember]
        rw [namedLoop_eq request requiredAuth _ hmember, hwild]
        simp [ruleDenies, ruleAllows, happlies]

/-- The rule loop: denied when a rule denies and that is looked for, and else
allowed when one allows. -/
theorem rulesLoop_spec (rules : List Rule) (allowed : Bool) :
    (rulesLoop request requiredAuth scanForDenied rules allowed).2 =
        (scanForDenied && rules.any (ruleDenies request)) ∧
      ((scanForDenied && rules.any (ruleDenies request)) = false →
        (rulesLoop request requiredAuth scanForDenied rules allowed).1 =
          (allowed || rules.any (ruleAllows request requiredAuth))) := by
  rw [List.and_any_distrib_left]
  refine loop_spec _ _ (fun _ => rfl) ?_ ?_ rules allowed
  · intro rule rest allowed hdenied
    have hrule := isRuleMatched_eq request requiredAuth scanForDenied rule
    rw [scanResult, if_pos hdenied] at hrule
    simp [rulesLoop, hrule]
  · intro rule rest allowed hdenied
    have hrule := isRuleMatched_eq request requiredAuth scanForDenied rule
    rw [scanResult, hdenied] at hrule
    cases hallows : ruleAllows request requiredAuth rule <;> simp [rulesLoop, hrule, hallows]

end Members

/-- Some entry qualifies the peer for the list. -/
def aclQualifies (credentials : Credentials) (acl : Acl) : Bool :=
  acl.peers.any (qualifies credentials)

/-- The list is scanned for a deny: the first entry that qualifies the peer is
its own public key. -/
def aclScanned (credentials : Credentials) (acl : Acl) : Bool :=
  (acl.peers.find? (qualifies credentials)).any (namesKey credentials)

def aclAllows (request : Request) (acl : Acl) : Bool :=
  acl.rules.any (ruleAllows request (genRight request))

def aclDenies (request : Request) (acl : Acl) : Bool :=
  acl.rules.any (ruleDenies request)

theorem isPeerQualifiedLoop_cons (credentials : Credentials) (peer : Peer) (rest : List Peer) :
    isPeerQualifiedLoop credentials (peer :: rest) =
      if qualifies credentials peer then (true, namesKey credentials peer)
      else isPeerQualifiedLoop credentials rest := by
  obtain ⟨trustedPeer, publicKey, issuerChain, guildMap⟩ := credentials
  rw [isPeerQualifiedLoop]
  cases htype : peer.type <;> cases trustedPeer <;> cases publicKey <;>
    simp [htype, qualifies, namesKey, qualifiesOtherwise]
  split <;> simp [*]

theorem isPeerQualifiedLoop_eq (credentials : Credentials) (peers : List Peer) :
    isPeerQualifiedLoop credentials peers =
      (peers.any (qualifies credentials),
       (peers.find? (qualifies credentials)).any (namesKey credentials)) := by
  induction peers with
  | nil => rfl
  | cons peer rest ih =>
    rw [isPeerQualifiedLoop_cons, ih]
    cases hqualifies : qualifies credentials peer <;> simp [hqualifies]

/-- The list loop: denied by a scanned list that denies, and else allowed by a
list the peer qualifies for. -/
theorem aclsLoop_spec (request : Request) (credentials : Credentials) (acls : List Acl)
    (allowed : Bool) :
    (aclsLoop request credentials (genRight request) acls allowed).2 =
        acls.any (fun acl => aclScanned credentials acl && aclDenies request acl) ∧
      (acls.any (fun acl => aclScanned credentials acl && aclDenies request acl) = false →
        (aclsLoop request credentials (genRight request) acls allowed).1 =
          (allowed || acls.any fun acl => aclQualifies credentials acl && aclAllows request acl)) := by
  have hpeer (acl : Acl) : isPeerQualifiedForAcl acl credentials =
      (aclQualifies credentials acl, aclScanned credentials acl) :=
    isPeerQualifiedLoop_eq credentials acl.peers
  have hqualifies (acl : Acl) (hscanned : aclScanned credentials acl = true) :
      aclQualifies credentials acl = true := by
    obtain ⟨peer, hfind, -⟩ := (Option.any_eq_true _ _).mp hscanned
    exact List.any_eq_true.mpr ⟨peer, List.mem_of_find?_eq_some hfind, List.find?_some hfind⟩
  have hrules (acl : Acl) :
      (isPolicyAclMatched acl request (genRight request) (aclScanned credentials acl)).2 =
          (aclScanned credentials acl && aclDenies request acl) ∧
        ((aclScanned credentials acl && aclDenies request acl) = false →
          (isPolicyAclMatched acl request (genRight request) (aclScanned credentials acl)).1 =
            aclAllows request acl) :=
    rulesLoop_spec request (genRight request) (aclScanned credentials acl) acl.rules false
  refine loop_spec _ _ (fun _ => rfl) ?_ ?_ acls allowed
  · intro acl rest allowed hdenied
    have hsnd := (hrules acl).1.trans hdenied
    have hfirst := hqualifies acl (Bool.and_eq_true_iff.mp hdenied).1
    simp only [aclsLoop, hpeer, hfirst]
    generalize isPolicyAclMatched acl _ _ _ = result at hsnd
    obtain ⟨matched, denied⟩ := result
    subst hsnd
    rfl
  · intro acl rest allowed hdenied
    have hfst := (hrules acl).2 hdenied
    have hsnd := (hrules acl).1.trans hdenied
    cases hfirst : aclQualifies credentials acl with
    | false => simp [aclsLoop, hpeer, hfirst]
    | true =>
      simp only [aclsLoop, hpeer, hfirst]
      generalize isPolicyAclMatched acl _ _ _ = result at hfst hsnd
      obtain ⟨matched, denied⟩ := result
      subst hfst hsnd
      rfl

section Decision

variable (request : Request) (credentials : Credentials)

/-- Some list that the peer qualifies for has a member that allows the request,
which needs a right. -/
def Granted (policy : PermissionPolicy) : Prop :=
  genRight request ≠ 0#8 ∧
    ∃ acl ∈ policy.acls, aclQualifies credentials acl = true ∧ aclAllows request acl = true

/-- The list names the peer's own public key and explicitly denies the request. -/
def DeniesPeer (acl : Acl) : Prop :=
  acl.peers.any (namesKey credentials) = true ∧ aclDenies request acl = true

/-- The decision: some list grants the request and none that names the peer's own
public key denies it. -/
def Permitted (policy : PermissionPolicy) : Prop :=
  Granted request credentials policy ∧
    ¬ ∃ acl ∈ policy.acls, DeniesPeer request credentials acl

/-- If a request is granted and denied, then it is denied by a list which the peer
qualifies for by its public key only. -/
def DenialReached (policy : PermissionPolicy) : Prop :=
  Granted request credentials policy →
    (∃ acl ∈ policy.acls, DeniesPeer request credentials acl) →
      ∃ acl ∈ policy.acls, DeniesPeer request credentials acl ∧
        acl.peers.any (qualifiesOtherwise credentials) = false

theorem isAuthorizedByPolicy_iff (policy : PermissionPolicy) :
    isAuthorizedByPolicy request policy credentials = true ↔
      Granted request credentials policy ∧
        ¬ ∃ acl ∈ policy.acls, aclScanned credentials acl = true ∧ aclDenies request acl = true := by
  unfold isAuthorizedByPolicy Granted
  by_cases hright : genRight request = 0#8
  · simp [hright]
  · have hspec := aclsLoop_spec request credentials policy.acls false
    have hdenied : policy.acls.any (fun acl => aclScanned credentials acl && aclDenies request acl)
          = true ↔
        ∃ acl ∈ policy.acls, aclScanned credentials acl = true ∧ aclDenies request acl = true := by
      simp
    rw [← hdenied]
    simp only [isPeerAuthorized, hspec.1, ne_eq]
    cases hany : policy.acls.any (fun acl => aclScanned credentials acl && aclDenies request acl) with
    | true => simp
    | false => simp [hspec.2 hany]

end Decision

/-- The members of a rule in another order. -/
def RuleReordered (left right : Rule) : Prop :=
  left.objPath = right.objPath ∧ left.interfaceName = right.interfaceName ∧
    left.members.Perm right.members

/-- The peers and rules of a list, and the members of its rules, in another
order. -/
def AclReordered (left right : Acl) : Prop :=
  left.peers.Perm right.peers ∧ Lib.Reorder.Reordered RuleReordered left.rules right.rules

/-- The policy with everything in another order. -/
def PolicyReordered (left right : PermissionPolicy) : Prop :=
  Lib.Reorder.Reordered AclReordered left.acls right.acls

private theorem any_eq_of_perm (p : α → Bool) {left right : List α} (hperm : left.Perm right) :
    left.any p = right.any p := by
  rw [Bool.eq_iff_iff, List.any_eq_true, List.any_eq_true]
  exact exists_congr fun a => and_congr_left fun _ => hperm.mem_iff

section Reordered

variable (request : Request)

section Rules

variable {left right : Rule} (h : RuleReordered left right)

include h

theorem ruleApplies_congr :
    ruleApplies request left = ruleApplies request right := by
  simp only [ruleApplies, h.1, h.2.1]

theorem ruleAllows_congr :
    ruleAllows request (genRight request) left = ruleAllows request (genRight request) right := by
  rw [ruleAllows, ruleAllows, ruleApplies_congr request h, any_eq_of_perm _ h.2.2]

theorem ruleDenies_congr :
    ruleDenies request left = ruleDenies request right := by
  rw [ruleDenies, ruleDenies, ruleApplies_congr request h, any_eq_of_perm _ h.2.2, h.1, h.2.1]

end Rules

theorem aclAllows_congr {left right : Acl} (h : AclReordered left right) :
    aclAllows request left = aclAllows request right := by
  rw [Bool.eq_iff_iff, aclAllows, aclAllows, List.any_eq_true, List.any_eq_true]
  exact h.2.exists_iff fun a b hab => by rw [ruleAllows_congr request hab]

theorem aclDenies_congr {left right : Acl} (h : AclReordered left right) :
    aclDenies request left = aclDenies request right := by
  rw [Bool.eq_iff_iff, aclDenies, aclDenies, List.any_eq_true, List.any_eq_true]
  exact h.2.exists_iff fun a b hab => by rw [ruleDenies_congr request hab]

theorem granted_congr (credentials : Credentials)
    {left right : PermissionPolicy} (h : PolicyReordered left right) :
    Granted request credentials left ↔ Granted request credentials right := by
  refine and_congr_right fun _ => h.exists_iff fun a b hab => ?_
  rw [aclQualifies, aclQualifies, any_eq_of_perm _ hab.1, aclAllows_congr request hab]

theorem deniesPeer_congr (credentials : Credentials) {left right : Acl}
    (h : AclReordered left right) :
    DeniesPeer request credentials left ↔ DeniesPeer request credentials right := by
  rw [DeniesPeer, DeniesPeer, any_eq_of_perm _ h.1, aclDenies_congr request h]

end Reordered

variable {credentials : Credentials}

theorem namesKey_of_scanned (h : aclScanned credentials acl = true) :
    acl.peers.any (namesKey credentials) = true := by
  unfold aclScanned at h
  cases hfind : acl.peers.find? (qualifies credentials) with
  | none => simp [hfind] at h
  | some peer =>
    rw [hfind] at h
    exact List.any_eq_true.mpr ⟨peer, List.mem_of_find?_eq_some hfind, h⟩

/-- A list in which nothing but its own key qualifies the peer is scanned. -/
theorem scanned_of_namesKey (hkey : acl.peers.any (namesKey credentials) = true)
    (honly : acl.peers.any (qualifiesOtherwise credentials) = false) :
    aclScanned credentials acl = true := by
  obtain ⟨peer, hmem, hnames⟩ := List.any_eq_true.mp hkey
  unfold aclScanned
  cases hfind : acl.peers.find? (qualifies credentials) with
  | none =>
    have hnot := List.find?_eq_none.mp hfind peer hmem
    simp [qualifies, hnames] at hnot
  | some first =>
    have hother := List.any_eq_false.mp honly first (List.mem_of_find?_eq_some hfind)
    have hqualifies := List.find?_some hfind
    simpa [qualifies, hother] using hqualifies

/-- The list with the entries that qualify the peer otherwise in front. -/
def othersFirst (credentials : Credentials) (acl : Acl) : Acl :=
  { acl with
    peers := acl.peers.filter (qualifiesOtherwise credentials) ++
      acl.peers.filter (!qualifiesOtherwise credentials ·) }

theorem othersFirst_reordered (credentials : Credentials) (acl : Acl) :
    AclReordered acl (othersFirst credentials acl) :=
  ⟨(List.filter_append_perm _ _).symm,
   Lib.Reorder.Reordered.refl (fun _ => ⟨rfl, rfl, List.Perm.refl _⟩) _⟩

/-- With the other entries in front the scan takes place only where there are
none. -/
theorem otherwise_of_scanned_othersFirst
    (h : aclScanned credentials (othersFirst credentials acl) = true) :
    acl.peers.any (qualifiesOtherwise credentials) = false := by
  cases hother : acl.peers.filter (qualifiesOtherwise credentials) with
  | nil =>
    rw [List.any_eq_false]
    exact List.filter_eq_nil_iff.mp hother
  | cons first rest =>
    have hfirst : qualifiesOtherwise credentials first = true := by
      have hmem : first ∈ acl.peers.filter (qualifiesOtherwise credentials) := by
        rw [hother]
        exact List.mem_cons_self
      exact (List.mem_filter.mp hmem).2
    have hqualifies : qualifies credentials first = true := by
      rw [qualifies, hfirst, Bool.or_true]
    have hkey : namesKey credentials first = true := by
      simpa [aclScanned, othersFirst, hother, hqualifies] using h
    have hexclusive : namesKey credentials first = true →
        qualifiesOtherwise credentials first = false := by
      intro hnames
      have htype : first.type = .withPublicKey := by
        simp only [namesKey, Bool.and_eq_true, Option.any_eq_true, decide_eq_true_eq] at hnames
        obtain ⟨-, key, -, hkind, -⟩ := hnames
        exact hkind
      simp [qualifiesOtherwise, htype]
    rw [hexclusive hkey] at hfirst
    cases hfirst

/-- For every policy, peer and request: every ordering of the policy is evaluated
to the decision it stands for exactly when a denial of a granted request is made
by a list which the peer qualifies for by its own key only. -/
theorem policy_decision_iff (policy : PermissionPolicy) (credentials : Credentials)
    (request : Request) :
    (∀ reordered, PolicyReordered policy reordered →
        (isAuthorizedByPolicy request reordered credentials = true ↔
          Permitted request credentials policy)) ↔
      DenialReached request credentials policy := by
  constructor
  · intro hall hgranted hdenied
    let reordered : PermissionPolicy :=
      { policy with acls := policy.acls.map (othersFirst credentials) }
    have hreordered : PolicyReordered policy reordered :=
      Lib.Reorder.Reordered.map _ (othersFirst_reordered credentials) policy.acls
    have hrefused : ¬ isAuthorizedByPolicy request reordered credentials = true := by
      rw [hall reordered hreordered]
      exact fun hpermitted => hpermitted.2 hdenied
    rw [isAuthorizedByPolicy_iff, not_and, not_not] at hrefused
    obtain ⟨moved, hmem, hscanned, hdenies⟩ :=
      hrefused ((granted_congr request credentials hreordered).mp hgranted)
    obtain ⟨acl, hacl, rfl⟩ := List.mem_map.mp hmem
    have hsame := othersFirst_reordered credentials acl
    refine ⟨acl, hacl, ?_, otherwise_of_scanned_othersFirst hscanned⟩
    rw [deniesPeer_congr request credentials hsame]
    exact ⟨namesKey_of_scanned hscanned, hdenies⟩
  · intro hreached reordered hreordered
    rw [isAuthorizedByPolicy_iff, Permitted, ← granted_congr request credentials hreordered]
    refine and_congr_right fun hgranted => not_congr ⟨?_, fun hdenied => ?_⟩
    · rintro ⟨acl, hacl, hscanned, hdenies⟩
      have hfound : ∃ acl ∈ reordered.acls, DeniesPeer request credentials acl :=
        ⟨acl, hacl, namesKey_of_scanned hscanned, hdenies⟩
      exact (hreordered.exists_iff fun a b hab => deniesPeer_congr request credentials hab).mpr
        hfound
    · have honly := (hreordered.exists_iff fun a b hab => by
        rw [deniesPeer_congr request credentials hab, any_eq_of_perm _ hab.1]).mp
          (hreached hgranted hdenied)
      obtain ⟨acl, hacl, ⟨hkey, hdenies⟩, hother⟩ := honly
      exact ⟨acl, hacl, scanned_of_namesKey hkey hother, hdenies⟩

/-- A policy whose only list names everybody and then the peer's key, with a
rule that denies everything and one that allows to modify everything. -/
def everybodyFirst : PermissionPolicy where
  specificationVersion := 1#16
  version := 1#32
  acls := [{
    peers := [⟨.all, Vector.replicate 16 0, none⟩,
      ⟨.withPublicKey, Vector.replicate 16 0,
        some ⟨[], ⟨Vector.replicate 32 1, Vector.replicate 32 2⟩⟩⟩],
    rules := [⟨star, star, [⟨star, .notSpecified, 0#8⟩, ⟨star, .notSpecified, actionModify⟩]⟩] }]

def deniedPeer : Credentials where
  trustedPeer := true
  publicKey := some ⟨Vector.replicate 32 1, Vector.replicate 32 2⟩
  issuerChain := []
  guildMap := []

def methodCall : Request where
  outgoing := false
  propertyRequest := false
  isSetProperty := false
  objPath := [47]
  iName := [97, 46, 98]
  mbrName := [109]
  mbrType := .methodCall

theorem everybodyFirst_ignores_deny :
    isAuthorizedByPolicy methodCall everybodyFirst deniedPeer = true ∧
      ¬ Permitted methodCall deniedPeer everybodyFirst ∧
      isAuthorizedByPolicy methodCall
        { everybodyFirst with
          acls := everybodyFirst.acls.map fun acl => { acl with peers := acl.peers.reverse } }
        deniedPeer = false := by
  refine ⟨by decide, fun hpermitted => hpermitted.2 ?_, by decide⟩
  exact ⟨_, List.mem_cons_self, by decide, by decide⟩

/-! ### The manifest of the peer -/

/-- Manifests are not scanned for a deny, so that the order of the rules does not matter. -/
theorem manifestLoop_eq (request : Request) (right : BitVec 8) (rules : List Rule) :
    manifestLoop request right rules = rules.any (ruleAllows request right) := by
  induction rules with
  | nil => rfl
  | cons rule rest ih =>
    have hrule := isRuleMatched_eq request right false rule
    rw [manifestLoop, hrule, List.any_cons]
    cases ruleAllows request right rule <;> simp [scanResult, ih]

/-- A request is authorized exactly if the policy allows it and, unless the peer is exempt, some
rule of its manifest does: a manifest never allows what the policy does not, and never denies
what one of its rules allows. -/
theorem isAuthorized_iff (request : Request) (policy : PermissionPolicy) (auth : PeerAuth)
    (guildMap : List (List Certificate)) (manifest : List Rule) :
    isAuthorized request (some policy) auth guildMap manifest = true ↔
      isAuthorizedByPolicy request policy (auth.credentials guildMap).1 = true ∧
        ((auth.credentials guildMap).2 = true →
          ∃ rule ∈ manifest, ruleAllows request (genRight request) rule = true) := by
  cases hpolicy : isAuthorizedByPolicy request policy (auth.credentials guildMap).1 with
  | false => simp [isAuthorized, hpolicy]
  | true =>
    cases henforced : (auth.credentials guildMap).2 <;>
      simp [isAuthorized, isAuthorizedByPeerManifest, manifestLoop_eq, hpolicy, henforced]

end AllJoyn.Policy
