import AllJoyn.Policy.Export

/-!
What a failed `PermissionPolicy::Import` leaves behind. The versions of the
object are set before its ACLs are built, so an argument whose ACLs cannot be
built still renames the policy.
-/

namespace AllJoyn.Policy

open Wire Lib.Result

variable {arg : MsgArg}

/-! ### Arguments that the builders take -/

/-- A key with the one algorithm and the one curve, and coordinates of their
size. -/
def IsKeyInfo (arg : MsgArg) : Prop :=
  ∃ id xCoord yCoord, arg.get keyInfoFormat = .ok [.number algorithmEcdsaSha256,
      .number eccNistP256, .numbers id, .numbers xCoord, .numbers yCoord] ∧
    xCoord.length = eccCoordinateSize ∧ yCoord.length = eccCoordinateSize

/-- A peer of a known type, with a key and a group where the type needs them. -/
def IsPeer (arg : MsgArg) : Prop :=
  ∃ number pubKeys sgId type, arg.get peerFormat =
      .ok [.number number, .args pubKeys, .numbers sgId] ∧
    PeerType.ofNat? number = some type ∧
    (type.isKeyless = true ∨
      (∃ pubKey ∈ pubKeys.head?, IsKeyInfo pubKey) ∧
        (type = .withMembership → sgId.length = guidSize))

/-- A member of a known type. -/
def IsMember (arg : MsgArg) : Prop :=
  ∃ name number actionMask, arg.get memberFormat =
      .ok [.text name, .number number, .number actionMask] ∧
    (MemberType.ofNat? number).isSome

def IsRule (arg : MsgArg) : Prop :=
  ∃ objPath interfaceName membersArgs, arg.get ruleFormat =
      .ok [.text objPath, .text interfaceName, .args membersArgs] ∧
    ∀ memberArg ∈ membersArgs, IsMember memberArg

def IsAcl (arg : MsgArg) : Prop :=
  ∃ peersArgs rulesArgs, arg.get aclFormat = .ok [.args peersArgs, .args rulesArgs] ∧
    (∀ peerArg ∈ peersArgs, IsPeer peerArg) ∧ ∀ ruleArg ∈ rulesArgs, IsRule ruleArg

theorem keyInfo_built_iff :
    (∃ keyInfo, msgArgToKeyInfoNISTP256PubKey arg = .ok keyInfo) ↔ IsKeyInfo arg := by
  constructor
  · rintro ⟨keyInfo, hbuilt⟩
    unfold msgArgToKeyInfoNISTP256PubKey at hbuilt
    split at hbuilt
    next algorithm curve id xCoord yCoord hget =>
      by_cases halgorithm : algorithm = algorithmEcdsaSha256
      · by_cases hcurve : curve = eccNistP256
        · by_cases hsizes :
              xCoord.length ≠ eccCoordinateSize ∨ yCoord.length ≠ eccCoordinateSize
          · simp [hsizes] at hbuilt
          · rw [not_or, not_not, not_not] at hsizes
            exact ⟨id, xCoord, yCoord, by rw [hget, halgorithm, hcurve], hsizes⟩
        · simp [hcurve] at hbuilt
      · simp [halgorithm] at hbuilt
    next => cases hbuilt
  · rintro ⟨id, xCoord, yCoord, hget, hx, hy⟩
    simp [msgArgToKeyInfoNISTP256PubKey, hget, hx, hy]

theorem peer_built_iff : (∃ peer, buildPeerFromArg arg = .ok peer) ↔ IsPeer arg := by
  constructor
  · rintro ⟨peer, hbuilt⟩
    obtain ⟨parameters, hget, hbuilt⟩ := bind_eq_ok.mp hbuilt
    split at hbuilt
    next number pubKeys sgId =>
      cases htype : PeerType.ofNat? number with
      | none => simp [htype] at hbuilt
      | some type =>
        refine ⟨number, pubKeys, sgId, type, hget, htype, ?_⟩
        simp only [htype] at hbuilt
        by_cases hkeyless : type.isKeyless = true
        · exact .inl hkeyless
        · rw [if_neg hkeyless] at hbuilt
          cases pubKeys with
          | nil => cases hbuilt
          | cons pubKey others =>
            by_cases hgroup : type = .withMembership ∧ sgId.length ≠ guidSize
            · simp [hgroup, error_bind] at hbuilt
            · simp only [hgroup] at hbuilt
              obtain ⟨keyInfo, hkey, -⟩ := bind_eq_ok.mp hbuilt
              exact .inr ⟨⟨pubKey, rfl, keyInfo_built_iff.mp ⟨keyInfo, hkey⟩⟩,
                fun hmembership => by_contra fun hsize => hgroup ⟨hmembership, hsize⟩⟩
    next => cases hbuilt
  · rintro ⟨number, pubKeys, sgId, type, hget, htype, hkey⟩
    rw [buildPeerFromArg, hget, ok_bind]
    simp only [htype]
    by_cases hkeyless : type.isKeyless = true
    · rw [if_pos hkeyless]
      exact ⟨_, rfl⟩
    · obtain ⟨⟨pubKey, hhead, hinfo⟩, hgroup⟩ := hkey.resolve_left hkeyless
      obtain ⟨others, rfl⟩ := List.head?_eq_some_iff.mp hhead
      obtain ⟨keyInfo, hbuilt⟩ := keyInfo_built_iff.mpr hinfo
      have hsize : ¬(type = .withMembership ∧ sgId.length ≠ guidSize) :=
        fun hwrong => hwrong.2 (hgroup hwrong.1)
      simp only [hkeyless, hsize, hbuilt]
      exact ⟨_, rfl⟩

theorem member_built_iff : (∃ member, buildMemberFromArg arg = .ok member) ↔ IsMember arg := by
  constructor
  · rintro ⟨member, hbuilt⟩
    obtain ⟨parameters, hget, hbuilt⟩ := bind_eq_ok.mp hbuilt
    split at hbuilt
    next name number actionMask =>
      refine ⟨name, number, actionMask, hget, ?_⟩
      cases htype : MemberType.ofNat? number with
      | none => simp [htype] at hbuilt
      | some type => rfl
    next => cases hbuilt
  · rintro ⟨name, number, actionMask, hget, htype⟩
    obtain ⟨type, htype⟩ := Option.isSome_iff_exists.mp htype
    rw [buildMemberFromArg, hget, ok_bind]
    simp only [htype]
    exact ⟨_, rfl⟩

theorem rule_built_iff : (∃ rule, buildRuleFromArg arg = .ok rule) ↔ IsRule arg := by
  constructor
  · rintro ⟨rule, hbuilt⟩
    obtain ⟨parameters, hget, hbuilt⟩ := bind_eq_ok.mp hbuilt
    split at hbuilt
    next objPath interfaceName membersArgs =>
      obtain ⟨members, hmembers, -⟩ := bind_eq_ok.mp hbuilt
      refine ⟨objPath, interfaceName, membersArgs, hget, fun memberArg hmem => ?_⟩
      exact member_built_iff.mp (exists_mapM_iff.mp ⟨members, hmembers⟩ memberArg hmem)
    next => cases hbuilt
  · rintro ⟨objPath, interfaceName, membersArgs, hget, hmembers⟩
    obtain ⟨members, hbuilt⟩ := exists_mapM_iff.mpr fun memberArg hmem =>
      member_built_iff.mpr (hmembers memberArg hmem)
    rw [buildRuleFromArg, hget, ok_bind]
    simp only [hbuilt]
    exact ⟨_, rfl⟩

theorem acl_built_iff : (∃ acl, buildAclFromArg arg = .ok acl) ↔ IsAcl arg := by
  constructor
  · rintro ⟨acl, hbuilt⟩
    obtain ⟨parameters, hget, hbuilt⟩ := bind_eq_ok.mp hbuilt
    split at hbuilt
    next peersArgs rulesArgs =>
      obtain ⟨peers, hpeers, hbuilt⟩ := bind_eq_ok.mp hbuilt
      obtain ⟨rules, hrules, -⟩ := bind_eq_ok.mp hbuilt
      refine ⟨peersArgs, rulesArgs, hget, fun peerArg hmem => ?_, fun ruleArg hmem => ?_⟩
      · exact peer_built_iff.mp (exists_mapM_iff.mp ⟨peers, hpeers⟩ peerArg hmem)
      · exact rule_built_iff.mp (exists_mapM_iff.mp ⟨rules, hrules⟩ ruleArg hmem)
    next => cases hbuilt
  · rintro ⟨peersArgs, rulesArgs, hget, hpeers, hrules⟩
    obtain ⟨peers, hpeersBuilt⟩ := exists_mapM_iff.mpr fun peerArg hmem =>
      peer_built_iff.mpr (hpeers peerArg hmem)
    obtain ⟨rules, hrulesBuilt⟩ := exists_mapM_iff.mpr fun ruleArg hmem =>
      rule_built_iff.mpr (hrules ruleArg hmem)
    rw [buildAclFromArg, hget, ok_bind]
    simp only [hpeersBuilt, hrulesBuilt]
    exact ⟨_, rfl⟩

/-! ### The status of a failure -/

/-- A computation that fails fails with an error. -/
def Proper {A : Type} (result : Except QStatus A) : Prop := result ≠ .error .ok

theorem Proper.bind {A B : Type} {first : Except QStatus A} {next : A → Except QStatus B}
    (hfirst : Proper first) (hnext : ∀ a, Proper (next a)) : Proper (first >>= next) := by
  intro hfailed
  rcases bind_eq_error.mp hfailed with hfailed | ⟨a, -, hfailed⟩
  · exact hfirst hfailed
  · exact hnext a hfailed

theorem Proper.mapM {A B : Type} {step : A → Except QStatus B} (hstep : ∀ a, Proper (step a))
    (xs : List A) : Proper (xs.mapM step) := by
  intro hfailed
  obtain ⟨x, -, hx⟩ := exists_of_mapM_eq_error hfailed
  exact hstep x hx

theorem Proper.ok {A : Type} (a : A) : Proper (.ok a : Except QStatus A) := by simp [Proper]

mutual
theorem getArg_proper : ∀ (type : Ty) (arg : MsgArg), Proper (getArg type arg)
  | .scalar _, arg => by
    unfold getArg
    split <;> [split; skip] <;> simp [Proper]
  | .string, arg | .variant, arg => by
    unfold getArg
    split <;> simp [Proper]
  | .array elem, arg => by
    refine Proper.bind ?_ fun parameter => Proper.ok _
    unfold getArray
    repeat' split
    all_goals simp [Proper]
  | .struct members, arg => by
    unfold getArg
    split
    · exact getArgs_proper members _
    · simp [Proper]
  | .objectPath, _ | .signature, _ | .dictEntry _ _, _ => by simp [getArg, Proper]

theorem getArgs_proper : ∀ (types : List Ty) (args : List MsgArg), Proper (getArgs types args)
  | [], [] => Proper.ok []
  | [], _ :: _ | _ :: _, [] => by simp [getArgs, Proper]
  | type :: types, arg :: args => by
    exact (getArg_proper type arg).bind fun first =>
      (getArgs_proper types args).bind fun rest => Proper.ok _
end

variable (arg : MsgArg)

theorem msgArgToKeyInfo_proper : Proper (msgArgToKeyInfoNISTP256PubKey arg) := by
  unfold msgArgToKeyInfoNISTP256PubKey
  repeat' split
  all_goals simp [Proper]

theorem buildPeerFromArg_proper : Proper (buildPeerFromArg arg) := by
  refine (getArg_proper peerFormat arg).bind fun parameters => ?_
  split
  next number pubKeys sgId =>
    cases PeerType.ofNat? number with
    | none => simp [Proper]
    | some type =>
      by_cases hkeyless : type.isKeyless = true
      · simp [hkeyless, Proper]
      · cases pubKeys with
        | nil => simp [hkeyless, Proper]
        | cons pubKey others =>
          by_cases hgroup : type = .withMembership ∧ sgId.length ≠ guidSize
          · simp [hgroup, Proper, error_bind, PeerType.isKeyless]
          · simp only [hgroup, hkeyless]
            exact (msgArgToKeyInfo_proper pubKey).bind fun keyInfo => Proper.ok _
  next => simp [Proper]

theorem buildMemberFromArg_proper : Proper (buildMemberFromArg arg) := by
  refine (getArg_proper memberFormat arg).bind fun parameters => ?_
  repeat' split
  all_goals simp [Proper]

theorem buildRuleFromArg_proper : Proper (buildRuleFromArg arg) := by
  refine (getArg_proper ruleFormat arg).bind fun parameters => ?_
  split
  · exact (Proper.mapM buildMemberFromArg_proper _).bind fun members => Proper.ok _
  · simp [Proper]

theorem buildAclFromArg_proper : Proper (buildAclFromArg arg) := by
  refine (getArg_proper aclFormat arg).bind fun parameters => ?_
  split
  · exact (Proper.mapM buildPeerFromArg_proper _).bind fun peers =>
      (Proper.mapM buildRuleFromArg_proper _).bind fun rules => Proper.ok _
  · simp [Proper]

/-! ### A failed import -/

/-- The argument is a policy with an ACL that cannot be built, the object
expects its format, and the argument gives the object another version. -/
def PermissionPolicy.Renamed (policy : PermissionPolicy) (expectedVersion : BitVec 16)
    (arg : MsgArg) : Prop :=
  ∃ specVersion policyVersion aclsArgs, arg.get policyFormat =
      .ok [.number specVersion, .number policyVersion, .args aclsArgs] ∧
    policy.specificationVersion = expectedVersion ∧ (∃ aclArg ∈ aclsArgs, ¬IsAcl aclArg) ∧
    (BitVec.ofNat 16 specVersion ≠ policy.specificationVersion ∨
      BitVec.ofNat 32 policyVersion ≠ policy.version)

theorem mapM_acls_error_iff {aclsArgs : List MsgArg} :
    (∃ status, aclsArgs.mapM buildAclFromArg = .error status) ↔
      ∃ aclArg ∈ aclsArgs, ¬IsAcl aclArg := by
  have hbuilt : (∃ acls, aclsArgs.mapM buildAclFromArg = .ok acls) ↔
      ∀ aclArg ∈ aclsArgs, IsAcl aclArg := by
    simp only [exists_mapM_iff, acl_built_iff]
  rw [← not_iff_not]
  push Not
  rw [← hbuilt]
  cases aclsArgs.mapM buildAclFromArg with
  | error status => simp
  | ok acls => simp

/-- A failed import leaves the object as it was, unless the argument is a
policy that fails only at its ACLs and carries other versions. -/
theorem importArg_failed_unchanged_iff (expectedVersion : BitVec 16) (arg : MsgArg)
    (policy : PermissionPolicy) :
    ((policy.importArg expectedVersion arg).1 ≠ .ok →
        (policy.importArg expectedVersion arg).2 = policy) ↔
      ¬policy.Renamed expectedVersion arg := by
  constructor
  · rintro hunchanged ⟨specVersion, policyVersion, aclsArgs, hget, hversion, hbad, hother⟩
    obtain ⟨status, hfailed⟩ := mapM_acls_error_iff.mpr hbad
    have hsome : aclsArgs.isEmpty = false := by
      obtain ⟨aclArg, hmem, -⟩ := hbad
      exact List.isEmpty_eq_false_iff_exists_mem.mpr ⟨aclArg, hmem⟩
    have himport : policy.importArg expectedVersion arg =
        (status, { policy with
          specificationVersion := BitVec.ofNat 16 specVersion
          version := BitVec.ofNat 32 policyVersion }) := by
      simp [PermissionPolicy.importArg, hget, hversion, hsome, hfailed]
    rw [himport] at hunchanged
    have hstatus : status ≠ .ok := by
      rintro rfl
      exact Proper.mapM buildAclFromArg_proper aclsArgs hfailed
    have hsame := hunchanged hstatus
    rcases hother with hspec | hserial
    · exact hspec (congrArg PermissionPolicy.specificationVersion hsame)
    · exact hserial (congrArg PermissionPolicy.version hsame)
  · intro hrenamed hstatus
    unfold PermissionPolicy.importArg at hstatus ⊢
    split
    next => rfl
    next specVersion policyVersion aclsArgs hget =>
      simp only [hget] at hstatus
      by_cases hversion : policy.specificationVersion ≠ expectedVersion
      · rw [if_pos hversion]
      · rw [if_neg hversion] at hstatus ⊢
        by_cases hempty : aclsArgs.isEmpty = true
        · rw [if_pos hempty] at hstatus
          exact absurd rfl hstatus
        · rw [if_neg hempty] at hstatus ⊢
          cases hacls : aclsArgs.mapM buildAclFromArg with
          | ok acls =>
            simp only [hacls] at hstatus
            exact absurd rfl hstatus
          | error status =>
            -- the ACLs failed, so the versions must be the object's own
            have hsame : ¬(BitVec.ofNat 16 specVersion ≠ policy.specificationVersion ∨
                BitVec.ofNat 32 policyVersion ≠ policy.version) := fun hother =>
              hrenamed ⟨specVersion, policyVersion, aclsArgs, hget, not_not.mp hversion,
                mapM_acls_error_iff.mp ⟨status, hacls⟩, hother⟩
            rw [not_or, not_not, not_not] at hsame
            rw [hsame.1, hsame.2]
    next => rfl

/-- A peer of no known type. -/
def unknownPeerArg : MsgArg :=
  .struct [.scalar .byte (ScalarType.byte.store 9), .array (some keyInfoFormat.sig) [],
    .scalarArray .byte []]

/-- A policy of version 7 with one ACL, for that peer. -/
def unknownPeerPolicyArg : MsgArg :=
  .struct [.scalar .uint16 (ScalarType.uint16.store 1),
    .scalar .uint32 (ScalarType.uint32.store 7),
    .array (some aclFormat.sig) [.struct [.array (some peerFormat.sig) [unknownPeerArg],
      .array (some ruleFormat.sig) []]]]

/-- The import fails and the object has got the version of the argument. -/
theorem importArg_unknownPeer_renames :
    let policy : PermissionPolicy := ⟨1, 6, []⟩
    policy.importArg 1 unknownPeerPolicyArg = (.invalidData, ⟨1, 7, []⟩) ∧
      ¬((policy.importArg 1 unknownPeerPolicyArg).1 ≠ .ok →
        (policy.importArg 1 unknownPeerPolicyArg).2 = policy) := by
  intro policy
  have himport : policy.importArg 1 unknownPeerPolicyArg = (.invalidData, ⟨1, 7, []⟩) := by rfl
  refine ⟨himport, ?_⟩
  intro hunchanged
  have hsame : (7 : BitVec 32) = 6 := congrArg PermissionPolicy.version (hunchanged (by decide))
  exact absurd hsame (by decide)

end AllJoyn.Policy
