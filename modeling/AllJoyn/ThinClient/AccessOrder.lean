import Mathlib.Data.List.TakeWhile
import AllJoyn.Lib.Reorder
import AllJoyn.ThinClient.Authorise

/-!
When the order of a policy does not matter to the thin client. Every loop but
one collects a union, so that its order is free. The exception is the search of
`AJ_MembershipApply` for an intermediate issuer: its place in the chain is kept
from one access control list to the next, and what one list has passed over is
lost to the lists behind it.
-/

namespace AllJoyn.ThinClient

open Lib.Reorder

variable {policy policy' : Policy} {acl acl' : PermissionACL} {membership : Membership}
  {acls : List PermissionACL} {root : List ECCPublicKey}

/-! ### Reorderings of a policy -/

structure RuleReordered (rule rule' : PermissionRule) : Prop where
  obj : rule.obj = rule'.obj
  ifn : rule.ifn = rule'.ifn
  members : rule.members.Perm rule'.members

structure ACLReordered (acl acl' : PermissionACL) : Prop where
  peers : acl.peers.Perm acl'.peers
  rules : Reordered RuleReordered acl.rules acl'.rules

/-- The policy with its access control lists in another order, and in these the
peers, the rules and the members of the rules. -/
def PolicyReordered (policy policy' : Policy) : Prop :=
  Reordered ACLReordered policy.acls policy'.acls

theorem ACLReordered.refl (acl : PermissionACL) : ACLReordered acl acl :=
  ⟨List.Perm.refl _, Reordered.refl (fun _ => ⟨rfl, rfl, List.Perm.refl _⟩) _⟩

theorem PolicyReordered.of_perm (h : policy.acls.Perm policy'.acls) :
    PolicyReordered policy policy' :=
  ⟨policy'.acls, h, List.forall₂_same.mpr fun acl _ => ACLReordered.refl acl⟩

/-! ### Rules -/

variable (ctx : AuthenticationContext) (acm : AccessControlMember) (withPublicKey : Bool)

theorem memberAccess_comm (rule rule' : PermissionRule) (total : RuleAccess)
    (member member' : PermissionMember) :
    memberAccess acm withPublicKey rule' (memberAccess acm withPublicKey rule total member) member' =
      memberAccess acm withPublicKey rule (memberAccess acm withPublicKey rule' total member')
        member := by
  unfold memberAccess
  split_ifs
  · dsimp only
    rw [RuleAccess.mk.injEq]
    exact ⟨by ac_rfl, by ac_rfl⟩
  · rfl
  · rfl
  · rfl

theorem ruleAccess_comm (total : RuleAccess) (rule rule' : PermissionRule) :
    ruleAccess acm withPublicKey (ruleAccess acm withPublicKey total rule) rule' =
      ruleAccess acm withPublicKey (ruleAccess acm withPublicKey total rule') rule := by
  unfold ruleAccess
  split_ifs
  · refine (List.foldl_hom (rule'.members.foldl (memberAccess acm withPublicKey rule')) ?_).symm
    intro state member
    exact (List.foldl_hom (memberAccess acm withPublicKey rule · member)
      (fun state member' => memberAccess_comm acm withPublicKey rule rule' state member member')).symm
  · rfl
  · rfl
  · rfl

theorem ruleAccess_reordered (total : RuleAccess) {rule rule' : PermissionRule}
    (h : RuleReordered rule rule') :
    ruleAccess acm withPublicKey total rule = ruleAccess acm withPublicKey total rule' := by
  have hmember : memberAccess acm withPublicKey rule = memberAccess acm withPublicKey rule' := by
    unfold memberAccess
    rw [h.obj, h.ifn]
  unfold ruleAccess
  rw [h.obj, h.ifn, hmember]
  split_ifs
  · exact h.members.foldl_eq'
      (fun _ _ _ _ state => memberAccess_comm acm withPublicKey rule' rule' state _ _) total
  · rfl

theorem permissionRuleAccess_reordered {rules rules' : List PermissionRule}
    (h : Reordered RuleReordered rules rules') :
    permissionRuleAccess rules acm withPublicKey = permissionRuleAccess rules' acm withPublicKey :=
  h.foldl_eq (fun total rule rule' => ruleAccess_comm acm withPublicKey total rule rule')
    (fun total _ _ hrule => ruleAccess_reordered acm withPublicKey total hrule) _

theorem permissionRuleAccess_frame (rules : List PermissionRule) (acm : AccessControlMember)
    (withPublicKey deny : Bool) (allow : UInt8) :
    permissionRuleAccess rules { acm with deny := deny, allow := allow } withPublicKey =
      permissionRuleAccess rules acm withPublicKey :=
  rfl

/-! ### Peers -/

theorem permissionPeerFind_perm {peers peers' : List PermissionPeer} (h : peers.Perm peers')
    (type : UInt8) (pub : Option ECCPublicKey) (group : List UInt8) :
    permissionPeerFind peers type pub group = permissionPeerFind peers' type pub group :=
  h.any_eq

theorem policyFound_reordered (h : ACLReordered acl acl') :
    policyFound ctx acl = policyFound ctx acl' := by
  unfold policyFound
  simp only [permissionPeerFind_perm h.peers]

theorem membershipFound_reordered (membership : Membership) (h : ACLReordered acl acl')
    (root : List ECCPublicKey) :
    membershipFound membership acl root = membershipFound membership acl' root := by
  have hfind : findIssuer acl membership.group root = findIssuer acl' membership.group root := by
    induction root with
    | nil => rfl
    | cons key rest ih =>
      cases rest with
      | nil => rfl
      | cons next rest =>
        unfold findIssuer
        rw [ih, permissionPeerFind_perm h.peers]
  unfold membershipFound namesIssuer
  rw [hfind, permissionPeerFind_perm h.peers]

/-! ### The grants of one access control list -/

theorem grantPolicy_comm (acl acl' : PermissionACL) (acm : AccessControlMember) :
    grantPolicy ctx acl' (grantPolicy ctx acl acm) =
      grantPolicy ctx acl (grantPolicy ctx acl' acm) := by
  unfold grantPolicy
  simp only [permissionRuleAccess_frame]
  rw [AccessControlMember.mk.injEq]
  exact ⟨rfl, rfl, rfl, rfl, by ac_rfl, by ac_rfl⟩

theorem grantPolicy_reordered (h : ACLReordered acl acl') :
    grantPolicy ctx acl = grantPolicy ctx acl' := by
  funext acm
  unfold grantPolicy
  rw [policyFound_reordered ctx h, permissionRuleAccess_reordered acm _ h.rules]

theorem grantMembership_comm (acl acl' : PermissionACL) (acm : AccessControlMember) :
    grantMembership acl' (grantMembership acl acm) =
      grantMembership acl (grantMembership acl' acm) := by
  unfold grantMembership
  simp only [permissionRuleAccess_frame]
  rw [AccessControlMember.mk.injEq]
  exact ⟨rfl, rfl, rfl, rfl, rfl, by ac_rfl⟩

theorem grantMembership_reordered (h : ACLReordered acl acl') :
    grantMembership acl = grantMembership acl' := by
  funext acm
  unfold grantMembership
  rw [permissionRuleAccess_reordered acm _ h.rules]

/-! ### Memberships -/

/-- The certificates of the chain that issue another one. -/
def Membership.issuing (membership : Membership) : List ECCPublicKey := membership.root.dropLast

/-- An entry for members of the group that `key` issues. -/
def namesKey (membership : Membership) (acl : PermissionACL) (key : ECCPublicKey) : Bool :=
  permissionPeerFind acl.peers peerTypeWithMembership (some key) membership.group

/-- The access control list has an entry for the group and the issuer of the root
or a certificate of the chain that issues another one. -/
def entitled (membership : Membership) (acl : PermissionACL) : Bool :=
  namesIssuer membership acl || membership.issuing.any (namesKey membership acl)

/-- For each access control list in turn, whether `AJ_MembershipApply` applies
its rules. -/
def applied (membership : Membership) : List PermissionACL → List ECCPublicKey → List Bool
  | [], _ => []
  | acl :: acls, root =>
    (membershipFound membership acl root).1 ::
      applied membership acls (membershipFound membership acl root).2

theorem entitled_of_key {key : ECCPublicKey} (hkey : key ∈ membership.issuing)
    (h : namesKey membership acl key = true) : entitled membership acl = true := by
  unfold entitled
  rw [List.any_eq_true.mpr ⟨key, hkey, h⟩, Bool.or_true]

def membershipStep (membership : Membership) (table : List AccessControlMember)
    (acl : PermissionACL) : List AccessControlMember :=
  if entitled membership acl then table.map (grantMembership acl) else table

/-- The search looks at the keys before the last one, and goes on behind the first
that the list names. -/
theorem findIssuer_spec (membership : Membership) (acl : PermissionACL)
    (root : List ECCPublicKey) :
    (findIssuer acl membership.group root).1 = root.dropLast.any (namesKey membership acl) ∧
      (findIssuer acl membership.group root).2.dropLast =
        (root.dropLast.dropWhile (!namesKey membership acl ·)).tail := by
  induction root with
  | nil => exact ⟨rfl, rfl⟩
  | cons key rest ih =>
    cases rest with
    | nil => exact ⟨rfl, rfl⟩
    | cons next rest =>
      have hnames : permissionPeerFind acl.peers peerTypeWithMembership (some key)
          membership.group = namesKey membership acl key := rfl
      rw [findIssuer, hnames, List.dropLast_cons_cons, List.any_cons, List.dropWhile_cons]
      cases namesKey membership acl key with
      | true => exact ⟨rfl, rfl⟩
      | false => exact ih

/-- Keys of their own, further and further down the chain, for the lists in turn. -/
def Served (membership : Membership) (acls : List PermissionACL) (chain : List ECCPublicKey) :
    Prop :=
  ∃ keys, keys.Sublist chain ∧ List.Forall₂ (fun acl key => namesKey membership acl key = true)
    acls keys

theorem served_cons_iff (chain : List ECCPublicKey) :
    Served membership (acl :: acls) chain ↔
      chain.any (namesKey membership acl) = true ∧
        Served membership acls (chain.dropWhile (!namesKey membership acl ·)).tail := by
  induction chain with
  | nil =>
    refine iff_of_false ?_ (by simp)
    rintro ⟨keys, hsublist, hnames⟩
    rw [List.sublist_nil.mp hsublist] at hnames
    cases hnames
  | cons key chain ih =>
    rw [List.any_cons, List.dropWhile_cons]
    cases hkey : namesKey membership acl key with
    | true =>
      refine ⟨?_, ?_⟩
      · rintro ⟨keys, hsublist, hnames⟩
        cases hnames with
        | cons _ hrest => exact ⟨rfl, _, hsublist.tail, hrest⟩
      · rintro ⟨-, keys, hsublist, hnames⟩
        exact ⟨key :: keys, hsublist.cons_cons key, .cons hkey hnames⟩
    | false =>
      refine Iff.trans ⟨?_, ?_⟩ ih
      · rintro ⟨keys, hsublist, hnames⟩
        refine ⟨keys, ?_, hnames⟩
        cases hnames with
        | cons hfirst _ =>
          cases hsublist with
          | cons _ hrest => exact hrest
          | cons_cons _ _ => exact Bool.noConfusion (hkey.symm.trans hfirst)
      · rintro ⟨keys, hsublist, hnames⟩
        exact ⟨keys, hsublist.cons key, hnames⟩

theorem membershipFound_of_names (h : namesIssuer membership acl = true)
    (root : List ECCPublicKey) : membershipFound membership acl root = (true, root) := by
  unfold membershipFound
  rw [if_pos h]

theorem membershipFound_of_not_names (h : namesIssuer membership acl = false)
    (root : List ECCPublicKey) :
    membershipFound membership acl root = findIssuer acl membership.group root := by
  unfold membershipFound
  rw [if_neg (by rw [h]; exact Bool.false_ne_true)]

/-- The lists that depend on an intermediate issuer. -/
def searching (membership : Membership) (acls : List PermissionACL) : List PermissionACL :=
  acls.filter fun acl => !namesIssuer membership acl

theorem mem_searching :
    acl ∈ searching membership acls ↔ acl ∈ acls ∧ namesIssuer membership acl = false := by
  simp [searching]

/-- A list that names the issuer of the root applies and leaves the search where
it is, so that only the others matter. -/
theorem applied_iff_searching (membership : Membership) (acls : List PermissionACL)
    (root : List ECCPublicKey) :
    applied membership acls root = acls.map (entitled membership) ↔
      applied membership (searching membership acls) root =
        (searching membership acls).map (entitled membership) := by
  induction acls generalizing root with
  | nil => exact Iff.rfl
  | cons acl acls ih =>
    cases hnames : namesIssuer membership acl with
    | true =>
      have hskip : searching membership (acl :: acls) = searching membership acls := by
        simp [searching, hnames]
      have hentitled : entitled membership acl = true := by simp [entitled, hnames]
      rw [hskip, applied, membershipFound_of_names hnames, List.map_cons, hentitled, ← ih root]
      simp
    | false =>
      have hkeep : searching membership (acl :: acls) = acl :: searching membership acls := by
        simp [searching, hnames]
      rw [hkeep, applied, applied, List.map_cons, List.map_cons, List.cons.injEq,
        List.cons.injEq, ih]

theorem applied_iff_served (hsearching : ∀ acl ∈ acls, namesIssuer membership acl = false)
    (hentitled : ∀ acl ∈ acls, entitled membership acl = true) (root : List ECCPublicKey) :
    applied membership acls root = acls.map (entitled membership) ↔
      Served membership acls root.dropLast := by
  induction acls generalizing root with
  | nil => exact ⟨fun _ => ⟨[], List.nil_sublist _, List.Forall₂.nil⟩, fun _ => rfl⟩
  | cons acl acls ih =>
    have hrest := ih (fun other hmem => hsearching other (List.mem_cons_of_mem _ hmem))
      (fun other hmem => hentitled other (List.mem_cons_of_mem _ hmem))
      (findIssuer acl membership.group root).2
    obtain ⟨hfound, hbehind⟩ := findIssuer_spec membership acl root
    rw [served_cons_iff, ← hfound, ← hbehind, ← hrest, applied, List.map_cons, List.cons.injEq,
      hentitled acl List.mem_cons_self,
      membershipFound_of_not_names (hsearching acl List.mem_cons_self)]

theorem applied_of_none (hroot : root.dropLast ⊆ membership.issuing)
    (hsearching : ∀ acl ∈ acls, namesIssuer membership acl = false)
    (hnone : ∀ acl ∈ acls, entitled membership acl = false) :
    applied membership acls root = acls.map (entitled membership) := by
  induction acls generalizing root with
  | nil => rfl
  | cons acl acls ih =>
    obtain ⟨hfound, hbehind⟩ := findIssuer_spec membership acl root
    have hsubset : (findIssuer acl membership.group root).2.dropLast ⊆ root.dropLast := by
      rw [hbehind]
      exact ((List.tail_sublist _).trans (List.dropWhile_sublist _)).subset
    have hpassed : root.dropLast.any (namesKey membership acl) = false := by
      rw [List.any_eq_false]
      intro key hkey hnames
      have hentitled := entitled_of_key (hroot hkey) hnames
      rw [hnone acl List.mem_cons_self] at hentitled
      exact Bool.false_ne_true hentitled
    rw [applied, List.map_cons, hnone acl List.mem_cons_self,
      membershipFound_of_not_names (hsearching acl List.mem_cons_self), hfound, hpassed]
    rw [ih (List.Subset.trans hsubset hroot)
      (fun other hmem => hsearching other (List.mem_cons_of_mem _ hmem))
      (fun other hmem => hnone other (List.mem_cons_of_mem _ hmem))]

theorem applied_stops {next : PermissionACL} (acls : List PermissionACL)
    (hacl : namesIssuer membership acl = false) (hnext : namesIssuer membership next = false)
    (hnone : ∀ key ∈ root.dropLast, namesKey membership acl key = false) :
    ∃ rest, applied membership (acl :: next :: acls) root = false :: false :: rest := by
  obtain ⟨hfound, hbehind⟩ := findIssuer_spec membership acl root
  have hall : root.dropLast.dropWhile (!namesKey membership acl ·) = [] :=
    List.dropWhile_eq_nil_iff.mpr fun key hkey => by rw [hnone key hkey]; rfl
  have hlost := (findIssuer_spec membership next (findIssuer acl membership.group root).2).1
  rw [hbehind, hall] at hlost
  have hpassed : root.dropLast.any (namesKey membership acl) = false :=
    List.any_eq_false.mpr fun key hkey => by rw [hnone key hkey]; exact Bool.false_ne_true
  rw [applied, applied, membershipFound_of_not_names hacl, membershipFound_of_not_names hnext,
    hfound, hpassed, hlost]
  exact ⟨_, rfl⟩

/-- No order of the policy keeps a list from a chain that it has an entry for:
either no such list needs an intermediate issuer, or in any order all lists that
do not name the issuer of the root find intermediate issuers of their own. -/
def Undisturbed (policy : Policy) (membership : Membership) : Prop :=
  (∀ acl ∈ policy.acls, namesIssuer membership acl = false →
      ∀ key ∈ membership.issuing, namesKey membership acl key = false) ∨
    ∀ order, order.Perm (searching membership policy.acls) →
      Served membership order membership.issuing

theorem Served.entitled (h : Served membership acls membership.issuing) :
    ∀ acl ∈ acls, entitled membership acl = true := by
  obtain ⟨keys, hsublist, hnames⟩ := h
  intro acl hacl
  obtain ⟨i, hi, rfl⟩ := List.mem_iff_getElem.mp hacl
  obtain ⟨hlength, hget⟩ := List.forall₂_iff_get.mp hnames
  have hkey : keys.get ⟨i, hlength ▸ hi⟩ ∈ membership.issuing := hsublist.subset (List.get_mem _ _)
  exact entitled_of_key hkey (hget i hi (hlength ▸ hi))

theorem entitled_eq_false (hsearching : namesIssuer membership acl = false) :
    entitled membership acl = false ↔
      ∀ key ∈ membership.issuing, namesKey membership acl key = false := by
  simp [entitled, hsearching]

theorem Undisturbed.applied_perm (h : Undisturbed policy membership)
    (hperm : policy.acls.Perm acls) :
    applied membership acls membership.root = acls.map (entitled membership) := by
  rw [applied_iff_searching]
  have hsearching : ∀ acl ∈ searching membership acls, namesIssuer membership acl = false :=
    fun acl hacl => (mem_searching.mp hacl).2
  rcases h with hnone | hserved
  · refine applied_of_none (List.Subset.refl _) hsearching ?_
    intro acl hacl
    obtain ⟨hmem, hnames⟩ := mem_searching.mp hacl
    exact (entitled_eq_false hnames).mpr (hnone acl (hperm.mem_iff.mpr hmem) hnames)
  · have horder := hserved (searching membership acls) (hperm.filter _).symm
    exact (applied_iff_served hsearching horder.entitled membership.root).mpr horder

/-- The order that puts a list without an entry for the chain first. -/
theorem undisturbed_of_applied (h : ∀ acls, policy.acls.Perm acls →
      applied membership acls membership.root = acls.map (entitled membership)) :
    Undisturbed policy membership := by
  by_contra hdisturbed
  unfold Undisturbed at hdisturbed
  push Not at hdisturbed
  obtain ⟨⟨waiting, hwaiting, hwnames, key, hkey, hnamed⟩, order, horder, hunserved⟩ := hdisturbed
  have hsearching : ∀ acl ∈ order, acl ∈ policy.acls ∧ namesIssuer membership acl = false :=
    fun acl hacl => mem_searching.mp (horder.mem_iff.mp hacl)
  by_cases hall : ∀ acl ∈ order, entitled membership acl = true
  · apply hunserved
    rw [Membership.issuing, ← applied_iff_served (fun acl hacl => (hsearching acl hacl).2) hall]
    have hsplit : policy.acls.Perm
        (order ++ policy.acls.filter (namesIssuer membership ·)) := by
      refine (List.filter_append_perm (fun acl => !namesIssuer membership acl) _).symm.trans ?_
      simpa [searching] using horder.symm.append_right _
    have hsame : searching membership
        (order ++ policy.acls.filter (namesIssuer membership ·)) = order := by
      unfold searching
      rw [List.filter_append, List.filter_eq_self.mpr, List.filter_eq_nil_iff.mpr, List.append_nil]
      · intro acl hacl
        simpa using (List.mem_filter.mp hacl).2
      · intro acl hacl
        simp [(hsearching acl hacl).2]
    have happlied := (applied_iff_searching membership _ _).mp (h _ hsplit)
    rwa [hsame] at happlied
  · push Not at hall
    obtain ⟨other, hother, hunentitled⟩ := hall
    obtain ⟨hmem, honames⟩ := hsearching other hother
    rw [ne_eq, Bool.not_eq_true, entitled_eq_false honames] at hunentitled
    have hentitled : entitled membership waiting = true :=
      entitled_of_key hkey (by simpa using hnamed)
    have hdiffer : waiting ≠ other := by
      rintro rfl
      exact hnamed (hunentitled key hkey)
    have hfirst : policy.acls.Perm
        (other :: waiting :: (policy.acls.erase other).erase waiting) :=
      (List.perm_cons_erase hmem).trans
        ((List.perm_cons_erase ((List.mem_erase_of_ne hdiffer).mpr hwaiting)).cons other)
    obtain ⟨rest, hstops⟩ := applied_stops ((policy.acls.erase other).erase waiting)
      honames hwnames hunentitled
    have happlied := h _ hfirst
    rw [hstops, List.map_cons, List.map_cons, hentitled] at happlied
    simp at happlied

/-! ### The whole row -/

theorem membershipLoop_of_applied
    (h : applied membership acls root = acls.map (entitled membership))
    (table : List AccessControlMember) :
    membershipLoop membership acls root table = acls.foldl (membershipStep membership) table := by
  induction acls generalizing root table with
  | nil => rfl
  | cons acl acls ih =>
    rw [applied, List.map_cons, List.cons.injEq] at h
    obtain ⟨hfirst, hrest⟩ := h
    rw [membershipLoop, List.foldl_cons, membershipStep, ← hfirst]
    generalize membershipFound membership acl root = outcome at hrest ⊢
    obtain ⟨found, rest⟩ := outcome
    cases found with
    | true => exact ih hrest _
    | false => exact ih hrest _

theorem entitled_reordered (membership : Membership) (h : ACLReordered acl acl') :
    entitled membership acl = entitled membership acl' := by
  unfold entitled namesIssuer namesKey
  simp only [permissionPeerFind_perm h.peers]

theorem applied_related (membership : Membership) {acls' : List PermissionACL}
    (h : List.Forall₂ ACLReordered acls acls') (root : List ECCPublicKey) :
    applied membership acls root = applied membership acls' root ∧
      acls.map (entitled membership) = acls'.map (entitled membership) := by
  induction h generalizing root with
  | nil => exact ⟨rfl, rfl⟩
  | cons hacl _ ih =>
    rw [applied, membershipFound_reordered membership hacl, List.map_cons,
      entitled_reordered membership hacl]
    exact ⟨congrArg _ (ih _).1, congrArg _ (ih root).2⟩

theorem Undisturbed.applied_reordered (h : Undisturbed policy membership)
    (hreordered : PolicyReordered policy policy') :
    applied membership policy'.acls membership.root = policy'.acls.map (entitled membership) := by
  obtain ⟨middle, hperm, hrelated⟩ := hreordered
  obtain ⟨happlied, hentitled⟩ := applied_related membership hrelated membership.root
  rw [← happlied, ← hentitled]
  exact h.applied_perm hperm

section Reordered

variable (h : PolicyReordered policy policy') (table : List AccessControlMember)

include h

theorem policyApply_reordered (claim : ClaimConfig) :
    policyApply (some policy) ctx claim table = policyApply (some policy') ctx claim table := by
  refine h.foldl_eq ?_ ?_ table
  · intro state acl acl'
    split_ifs
    · rw [List.map_map, List.map_map]
      exact List.map_congr_left fun acm _ => grantPolicy_comm ctx acl acl' acm
    · rfl
    · rfl
    · rfl
  · intro state acl acl' hacl
    rw [policyFound_reordered ctx hacl, grantPolicy_reordered ctx hacl]

theorem membershipSteps_reordered (membership : Membership) :
    policy.acls.foldl (membershipStep membership) table =
      policy'.acls.foldl (membershipStep membership) table := by
  refine h.foldl_eq ?_ ?_ table
  · intro state acl acl'
    unfold membershipStep
    split_ifs
    · rw [List.map_map, List.map_map]
      exact List.map_congr_left fun acm _ => grantMembership_comm acl acl' acm
    · rfl
    · rfl
    · rfl
  · intro state acl acl' hacl
    unfold membershipStep
    rw [entitled_reordered membership hacl, grantMembership_reordered hacl]

theorem peerAccess_reordered (claim : ClaimConfig) {peer : Presented}
    (hundisturbed : ∀ membership ∈ peer.memberships, Undisturbed policy membership) :
    peerAccess (some policy') claim peer table = peerAccess (some policy) claim peer table := by
  have hsame : PolicyReordered policy policy := PolicyReordered.of_perm (List.Perm.refl _)
  have hmembership : ∀ table, ∀ membership ∈ peer.memberships,
      membershipApply (some policy') membership table =
        membershipApply (some policy) membership table := by
    intro table membership hmem
    have happlied := hundisturbed membership hmem
    calc membershipApply (some policy') membership table
        = policy'.acls.foldl (membershipStep membership) table :=
          membershipLoop_of_applied (happlied.applied_reordered h) table
      _ = policy.acls.foldl (membershipStep membership) table :=
          (membershipSteps_reordered h table membership).symm
      _ = membershipApply (some policy) membership table :=
          (membershipLoop_of_applied (happlied.applied_reordered hsame) table).symm
  unfold peerAccess
  dsimp only
  rw [← policyApply_reordered peer.ctx h _ claim, List.foldl_ext _ _ _ hmembership]

end Reordered

/-- The row of a peer is free of the order of the policy, and all lists with an
entry for a chain contribute to it, exactly when every chain is undisturbed. -/
theorem peerAccess_orderFree_iff (policy : Policy) (claim : ClaimConfig) (peer : Presented)
    (table : List AccessControlMember) :
    (∀ policy', PolicyReordered policy policy' →
        peerAccess (some policy') claim peer table = peerAccess (some policy) claim peer table ∧
        ∀ membership ∈ peer.memberships,
          applied membership policy'.acls membership.root =
            policy'.acls.map (entitled membership)) ↔
      ∀ membership ∈ peer.memberships, Undisturbed policy membership := by
  constructor
  · intro h membership hmem
    refine undisturbed_of_applied fun acls hperm => ?_
    exact (h ⟨acls⟩ (PolicyReordered.of_perm hperm)).2 membership hmem
  · intro h policy' hreordered
    refine ⟨peerAccess_reordered hreordered table claim h, ?_⟩
    intro membership hmem
    exact (h membership hmem).applied_reordered hreordered

/-! A chain whose root is issued by a key the device does not know: the root and
its subject. Of two access control lists for members of the group one is for the
root and one for an authority that has no part in the chain. -/

def sampleKey (n : UInt8) : ECCPublicKey := ⟨0, 0, Vector.replicate 32 n, Vector.replicate 32 n⟩

def sampleAcl (n : UInt8) : PermissionACL where
  peers := [⟨peerTypeWithMembership, sampleKey n, [7]⟩]
  rules := [⟨[0x2A], [0x2A], [⟨[0x2A], memberTypeAny, actionModify⟩]⟩]

def samplePeer : Presented where
  ctx := ⟨suiteEcdheEcdsa, [sampleKey 1, sampleKey 2]⟩
  memberships := [⟨[sampleKey 2, sampleKey 1], none, [7]⟩]
  manifests := []

/-- The method `?f` of `/a`. -/
def sampleTable : List AccessControlMember :=
  [⟨0x01000000, [0x2F, 0x61], [0x24, 0x69], [0x3F, 0x66], false, 0⟩]

theorem sampleAcls_order :
    PolicyReordered ⟨[sampleAcl 2, sampleAcl 3]⟩ ⟨[sampleAcl 3, sampleAcl 2]⟩ ∧
      (peerAccess (some ⟨[sampleAcl 2, sampleAcl 3]⟩) ⟨0, 0⟩ samplePeer sampleTable).map
        (·.allow) = [policyMethodIncoming] ∧
      (peerAccess (some ⟨[sampleAcl 3, sampleAcl 2]⟩) ⟨0, 0⟩ samplePeer sampleTable).map
        (·.allow) = [0] :=
  ⟨PolicyReordered.of_perm (List.Perm.swap _ _ _), by decide +kernel, by decide +kernel⟩

end AllJoyn.ThinClient
