import Mathlib.Data.UInt
import AllJoyn.Policy.Export

/-!
When a policy survives its export and import. The argument itself carries
every legal policy; what is lost depends on the object that imports it, whose
old specification version is checked and whose old ACLs stay when the argument
has none.
-/

namespace AllJoyn.Policy

open Wire Lib.Result

/-! ### Legal policies -/

/-- A C string can hold it. -/
def Text (chars : List UInt8) : Prop := ∀ char ∈ chars, char ≠ 0

instance (chars : List UInt8) : Decidable (Text chars) :=
  inferInstanceAs (Decidable (∀ char ∈ chars, char ≠ 0))

/-- Peers that are identified by a key have one. -/
def Peer.Legal (peer : Peer) : Prop :=
  peer.type.isKeyless = false →
    peer.keyInfo.isSome ∧ ∀ keyInfo ∈ peer.keyInfo, keyInfo.keyId.length ≤ maxArrayLen

structure Rule.Legal (rule : Rule) : Prop where
  objPath : Text rule.objPath
  interfaceName : Text rule.interfaceName
  memberCount : rule.members.length ≤ maxArrayLen
  members : ∀ member ∈ rule.members, Text member.memberName

structure Acl.Legal (acl : Acl) : Prop where
  peerCount : acl.peers.length ≤ maxArrayLen
  peers : ∀ peer ∈ acl.peers, peer.Legal
  ruleCount : acl.rules.length ≤ maxArrayLen
  rules : ∀ rule ∈ acl.rules, rule.Legal

/-- Strings that C strings can hold, arrays of a length D-Bus allows, and keys
where peers are identified by one. -/
structure PermissionPolicy.Legal (policy : PermissionPolicy) : Prop where
  aclCount : policy.acls.length ≤ maxArrayLen
  acls : ∀ acl ∈ policy.acls, acl.Legal

/-! ### Arrays of arguments -/

theorem ofNat_bytes (data : List UInt8) : (data.map UInt8.toNat).map UInt8.ofNat = data := by
  rw [List.map_map]
  exact List.map_id'' (fun byte => by simp) data

theorem toBytes_toList {size : Nat} (data : Vector UInt8 size) :
    toBytes size (data.toList.map UInt8.toNat) = data := by
  ext index hindex
  simp [toBytes]

/-- The argument made of an array of bytes. -/
def bytesArg (data : List UInt8) : MsgArg :=
  .scalarArray .byte ((data.map UInt8.toNat).map ScalarType.byte.store)

variable {junk : Nat → UInt8} {types : List Ty} {keyInfo : KeyInfoNISTP256} {peer : Peer}

theorem bytes_stores {data : List UInt8} (hlength : data.length ≤ maxArrayLen) :
    Stores junk (.array (.scalar .byte)) [bytes data] (bytesArg data) := by
  apply Stores.scalarArray
  · simpa using hlength
  · rintro _ hmem
    obtain ⟨byte, -, rfl⟩ := List.mem_map.mp hmem
    exact byte.toNat_lt

/-- An argument that carries a value in a format: it has the signature of the
format and the value is read back from it. -/
structure Carries {A : Type} (junk : Nat → UInt8) (format : Ty)
    (build : MsgArg → Except QStatus A) (value : A) (arg : MsgArg) : Prop where
  hasSignature : arg.hasSignature junk format.sig = true
  isStruct : arg.typeId = (.struct, none)
  built : build arg = .ok value

theorem array_stores {args : List MsgArg} (hformat : LegalSignature [.struct types])
    (hlength : args.length ≤ maxArrayLen)
    (hsigs : ∀ arg ∈ args, arg.hasSignature junk (Ty.struct types).sig = true)
    (hstructs : ∀ arg ∈ args, arg.typeId = (.struct, none)) :
    Stores junk (.array (.struct types)) [.args args] (.array (some (Ty.struct types).sig) args) := by
  have hcount : countCompleteTypes (Ty.struct types).sig = 1 := by
    simpa [sigs] using countCompleteTypes_sigs hformat
  apply Stores.structArray
  rw [buildArray, if_neg (by omega), if_pos (List.all_eq_true.mpr hsigs),
    elementsStatus_ok hcount hstructs]

/-- A generator whose arguments carry the values of a list fills an array
that carries the whole list. -/
theorem array_carries {A B : Type} {xs : List B} {build : MsgArg → Except QStatus A}
    (generate : B → Except QStatus MsgArg) (value : B → A)
    (hformat : LegalSignature [.struct types]) (hlength : xs.length ≤ maxArrayLen)
    (hcarries : ∀ x ∈ xs, ∃ arg, generate x = .ok arg ∧
      Carries junk (.struct types) build (value x) arg) :
    ∃ args, xs.mapM generate = .ok args ∧
      Stores junk (.array (.struct types)) [.args args]
        (.array (some (Ty.struct types).sig) args) ∧
      args.mapM build = .ok (xs.map value) ∧ args.length = xs.length := by
  obtain ⟨args, hargs, hall⟩ := mapM_of_exists hcarries
  have heach : ∀ arg ∈ args, ∃ x, Carries junk (.struct types) build (value x) arg := by
    intro arg hmem
    obtain ⟨index, hindex, rfl⟩ := List.mem_iff_getElem.mp hmem
    exact ⟨_, hall.get (by rw [hall.length_eq]; exact hindex) hindex⟩
  refine ⟨args, hargs, array_stores hformat (by rw [← hall.length_eq]; exact hlength) ?_ ?_,
    mapM_of_forall₂ (hall.imp fun _ _ hx => hx.built), hall.length_eq.symm⟩
  · intro arg hmem
    obtain ⟨x, hx⟩ := heach arg hmem
    exact hx.hasSignature
  · intro arg hmem
    obtain ⟨x, hx⟩ := heach arg hmem
    exact hx.isStruct

/-! ### What the arguments carry -/

theorem keyInfoFormat_legal : LegalSignature [keyInfoFormat] :=
  ⟨by simp [AllLegal, Ty.Legal, keyInfoFormat], by decide⟩

theorem peerFormat_legal : LegalSignature [peerFormat] :=
  ⟨by simp [AllLegal, Ty.Legal, peerFormat, keyInfoFormat], by decide⟩

theorem memberFormat_legal : LegalSignature [memberFormat] :=
  ⟨by simp [AllLegal, Ty.Legal, memberFormat], by decide⟩

theorem ruleFormat_legal : LegalSignature [ruleFormat] :=
  ⟨by simp [AllLegal, Ty.Legal, ruleFormat, memberFormat], by decide⟩

theorem aclFormat_legal : LegalSignature [aclFormat] :=
  ⟨by simp [AllLegal, Ty.Legal, aclFormat, peerFormat, keyInfoFormat, ruleFormat, memberFormat],
    by decide⟩

theorem MemberType.ofNat?_toNat (type : MemberType) : MemberType.ofNat? type.toNat = some type := by
  cases type <;> rfl

theorem MemberType.toNat_lt (type : MemberType) : type.toNat < ScalarType.byte.range := by
  cases type <;> decide

theorem PeerType.ofNat?_toNat (type : PeerType) : PeerType.ofNat? type.toNat = some type := by
  cases type <;> rfl

theorem PeerType.toNat_lt (type : PeerType) : type.toNat < ScalarType.byte.range := by
  cases type <;> decide

variable (junk : Nat → UInt8)

theorem member_carries {member : Member} (htext : Text member.memberName) :
    ∃ arg, generateMemberArg junk member = .ok arg ∧
      Carries junk memberFormat buildMemberFromArg member arg := by
  have hmask : member.actionMask.toNat < ScalarType.byte.range := member.actionMask.isLt
  have hstores : Stores junk memberFormat [.text (some member.memberName),
      .number member.memberType.toNat, .number member.actionMask.toNat] (.struct _) :=
    .struct (.cons (.string htext) (.cons (.scalar member.memberType.toNat_lt)
      (.cons (.scalar hmask) .nil)))
  refine ⟨_, hstores.set_eq, rfl, rfl, ?_⟩
  rw [buildMemberFromArg, hstores.get_eq, ok_bind]
  simp [MemberType.ofNat?_toNat, cString_of_nonzero htext]

theorem rule_carries {rule : Rule} (hlegal : rule.Legal) :
    ∃ arg, generateRuleArg junk rule = .ok arg ∧
      Carries junk ruleFormat buildRuleFromArg rule arg := by
  obtain ⟨args, hargs, harray, hback, -⟩ := array_carries (generateMemberArg junk) id
    memberFormat_legal hlegal.memberCount fun member hmem => member_carries junk (hlegal.members member hmem)
  have hstores : Stores junk ruleFormat [.text (some rule.objPath),
      .text (some rule.interfaceName), .args args] (.struct _) :=
    .struct (.cons (.string hlegal.objPath) (.cons (.string hlegal.interfaceName)
      (.cons harray .nil)))
  have hgenerate : generateRuleArg junk rule = MsgArg.set junk ruleFormat
      [.text (some rule.objPath), .text (some rule.interfaceName), .args args] := by
    rw [generateRuleArg, hargs, ok_bind]
  refine ⟨_, hgenerate.trans hstores.set_eq, rfl, rfl, ?_⟩
  rw [buildRuleFromArg, hstores.get_eq, ok_bind]
  simp [hback, cString_of_nonzero hlegal.objPath,
    cString_of_nonzero hlegal.interfaceName]

theorem keyInfo_carries (hkeyId : keyInfo.keyId.length ≤ maxArrayLen) :
    Carries junk keyInfoFormat msgArgToKeyInfoNISTP256PubKey keyInfo
      (keyInfoNISTP256PubKeyToMsgArg junk keyInfo) := by
  have hcoordinate (data : Vector UInt8 32) : data.toList.length ≤ maxArrayLen := by
    rw [Vector.length_toList]
    decide
  have hstores : Stores junk keyInfoFormat [.number algorithmEcdsaSha256, .number eccNistP256,
      bytes keyInfo.keyId, bytes keyInfo.publicKey.x.toList,
      bytes keyInfo.publicKey.y.toList] (.struct _) :=
    .struct (.cons (.scalar (by decide)) (.cons (.scalar (by decide)) (.cons (bytes_stores hkeyId)
      (.cons (bytes_stores (hcoordinate _)) (.cons (bytes_stores (hcoordinate _)) .nil)))))
  rw [keyInfoNISTP256PubKeyToMsgArg, hstores.set_eq]
  refine ⟨rfl, rfl, ?_⟩
  rw [msgArgToKeyInfoNISTP256PubKey, hstores.get_eq]
  simp only [bytes, ofNat_bytes, toBytes_toList]
  simp [eccCoordinateSize]

/-- What of a peer its argument carries: no key where the type needs none, and
no group but that of a membership. -/
def Peer.exported (peer : Peer) : Peer where
  type := peer.type
  securityGroupId := if peer.type = .withMembership then peer.securityGroupId else guidZero
  keyInfo := if peer.type.isKeyless then none else peer.keyInfo

theorem keyless_carries (hkeyless : peer.type.isKeyless = true) :
    ∃ arg, generatePeerArg junk peer = .ok arg ∧
      Carries junk peerFormat buildPeerFromArg peer.exported arg := by
  have hgroup : peer.type ≠ .withMembership := by
    intro htype
    rw [htype] at hkeyless
    cases hkeyless
  have hstores : Stores junk peerFormat [.number peer.type.toNat, .args [], bytes []]
      (.struct _) :=
    .struct (.cons (.scalar peer.type.toNat_lt) (.cons (.structArray rfl)
      (.cons (bytes_stores (by decide)) .nil)))
  have hgenerate : generatePeerArg junk peer =
      MsgArg.set junk peerFormat [.number peer.type.toNat, .args [], bytes []] := by
    rw [generatePeerArg, if_pos hkeyless, ok_bind, if_neg hgroup]
  refine ⟨_, hgenerate.trans hstores.set_eq, rfl, rfl, ?_⟩
  rw [buildPeerFromArg, hstores.get_eq, ok_bind]
  simp [bytes, PeerType.ofNat?_toNat, hkeyless, hgroup, Peer.exported]

theorem keyed_carries (hkeyed : peer.type.isKeyless = false)
    (hkeyInfo : peer.keyInfo = some keyInfo) (hkeyId : keyInfo.keyId.length ≤ maxArrayLen) :
    ∃ arg, generatePeerArg junk peer = .ok arg ∧
      Carries junk peerFormat buildPeerFromArg peer.exported arg := by
  let group := if peer.type = .withMembership then peer.securityGroupId.toList else []
  let key := keyInfoNISTP256PubKeyToMsgArg junk keyInfo
  have hgroup : group.length ≤ maxArrayLen := by
    simp only [group]
    split <;> simp [maxArrayLen]
  have hkey : Carries junk keyInfoFormat msgArgToKeyInfoNISTP256PubKey keyInfo key :=
    keyInfo_carries junk hkeyId
  have hkeys : Stores junk (.array keyInfoFormat) [.args [key]]
      (.array (some keyInfoFormat.sig) [key]) := by
    apply array_stores keyInfoFormat_legal (by simp [maxArrayLen])
    · exact List.forall_mem_singleton.mpr hkey.hasSignature
    · exact List.forall_mem_singleton.mpr hkey.isStruct
  have hstores : Stores junk peerFormat [.number peer.type.toNat, .args [key], bytes group]
      (.struct _) :=
    .struct (.cons (.scalar peer.type.toNat_lt) (.cons hkeys (.cons (bytes_stores hgroup) .nil)))
  have hgenerate : generatePeerArg junk peer = MsgArg.set junk peerFormat
      [.number peer.type.toNat, .args [key], bytes group] := by
    rw [generatePeerArg, if_neg (by simp [hkeyed]), hkeyInfo]
    rfl
  refine ⟨_, hgenerate.trans hstores.set_eq, rfl, rfl, ?_⟩
  rw [buildPeerFromArg, hstores.get_eq, ok_bind]
  simp only [bytes, PeerType.ofNat?_toNat, hkeyed, Bool.false_eq_true, if_false, hkey.built]
  rw [if_neg (by rintro ⟨hmember, hlength⟩; simp [group, hmember, guidSize] at hlength)]
  by_cases hmember : peer.type = .withMembership
  · simp [Peer.exported, hkeyInfo, hmember, PeerType.isKeyless, group,
      toBytes_toList]
  · simp [Peer.exported, hkeyInfo, hkeyed, hmember]

theorem peer_carries (hlegal : peer.Legal) :
    ∃ arg, generatePeerArg junk peer = .ok arg ∧
      Carries junk peerFormat buildPeerFromArg peer.exported arg := by
  cases hkeyless : peer.type.isKeyless with
  | true => exact keyless_carries junk hkeyless
  | false =>
    obtain ⟨hsome, hkeyId⟩ := hlegal hkeyless
    obtain ⟨keyInfo, hkeyInfo⟩ := Option.isSome_iff_exists.mp hsome
    exact keyed_carries junk hkeyless hkeyInfo (hkeyId keyInfo hkeyInfo)

def Acl.exported (acl : Acl) : Acl := { acl with peers := acl.peers.map Peer.exported }

theorem acl_carries {acl : Acl} (hlegal : acl.Legal) :
    ∃ arg, generateAclArg junk acl = .ok arg ∧
      Carries junk aclFormat buildAclFromArg acl.exported arg := by
  obtain ⟨peers, hpeers, hpeerArray, hpeersBack, -⟩ := array_carries (generatePeerArg junk)
    Peer.exported peerFormat_legal hlegal.peerCount
    fun peer hmem => peer_carries junk (hlegal.peers peer hmem)
  obtain ⟨rules, hrules, hruleArray, hrulesBack, -⟩ := array_carries (generateRuleArg junk)
    id ruleFormat_legal hlegal.ruleCount fun rule hmem => rule_carries junk (hlegal.rules rule hmem)
  have hstores : Stores junk aclFormat [.args peers, .args rules] (.struct _) :=
    .struct (.cons hpeerArray (.cons hruleArray .nil))
  have hgenerate : generateAclArg junk acl =
      MsgArg.set junk aclFormat [.args peers, .args rules] := by
    rw [generateAclArg, hpeers, ok_bind, hrules, ok_bind]
  refine ⟨_, hgenerate.trans hstores.set_eq, rfl, rfl, ?_⟩
  rw [buildAclFromArg, hstores.get_eq]
  simp [hpeersBack, hrulesBack, ok_bind, Acl.exported]

/-- A legal policy is exported, and the import of the argument depends on the
importing object as the code of `Import` says. -/
theorem exportArg_legal {policy : PermissionPolicy} (hlegal : policy.Legal) :
    ∃ arg, policy.exportArg junk = .ok arg ∧ ∀ expectedVersion target,
      PermissionPolicy.importArg expectedVersion arg target =
        if target.specificationVersion ≠ expectedVersion then (.invalidData, target)
        else (.ok, ⟨policy.specificationVersion, policy.version,
          if policy.acls.isEmpty then target.acls else policy.acls.map Acl.exported⟩) := by
  obtain ⟨args, hargs, harray, hback, hcount⟩ := array_carries (generateAclArg junk)
    Acl.exported aclFormat_legal hlegal.aclCount fun acl hmem => acl_carries junk (hlegal.acls acl hmem)
  have hspec : policy.specificationVersion.toNat < ScalarType.uint16.range :=
    policy.specificationVersion.isLt
  have hversion : policy.version.toNat < ScalarType.uint32.range := policy.version.isLt
  have hstores : Stores junk policyFormat [.number policy.specificationVersion.toNat,
      .number policy.version.toNat, .args args] (.struct _) :=
    .struct (.cons (.scalar hspec) (.cons (.scalar hversion) (.cons harray .nil)))
  have hexport : policy.exportArg junk = MsgArg.set junk policyFormat
      [.number policy.specificationVersion.toNat, .number policy.version.toNat, .args args] := by
    rw [PermissionPolicy.exportArg, hargs, ok_bind]
  have hempty : args.isEmpty = policy.acls.isEmpty := by
    rw [Bool.eq_iff_iff, List.isEmpty_iff_length_eq_zero, List.isEmpty_iff_length_eq_zero, hcount]
  refine ⟨_, hexport.trans hstores.set_eq, ?_⟩
  intro expectedVersion target
  rw [PermissionPolicy.importArg, hstores.get_eq]
  simp only [hempty, hback, BitVec.ofNat_toNat]
  split
  · rfl
  · split <;> rfl

/-! ### The round trip -/

theorem sameElements_map {A : Type} (same : A → A → Bool) (change : A → A) (xs : List A) :
    sameElements same (xs.map change) xs = true ↔ ∀ x ∈ xs, same (change x) x = true := by
  induction xs with
  | nil => simp [sameElements]
  | cons x xs ih =>
    simp only [sameElements, List.length_map, beq_self_eq_true, Bool.true_and] at ih
    simp [sameElements, ih]

theorem Peer.exported_same (peer : Peer) :
    peer.exported.same peer = true ↔ (peer.type.isKeyless = true → peer.keyInfo = none) := by
  have hgroup : (peer.type != .withMembership ||
      peer.exported.securityGroupId == peer.securityGroupId) = true := by
    by_cases hmember : peer.type = .withMembership
    · simp [hmember, Peer.exported]
    · simp [hmember]
  have hsame : peer.exported.same peer = (peer.exported.keyInfo == peer.keyInfo) := by
    simp [Peer.same, hgroup, show peer.exported.type = peer.type from rfl]
  rw [hsame, beq_iff_eq]
  cases hkeyless : peer.type.isKeyless with
  | true => simp [Peer.exported, hkeyless, eq_comm]
  | false => simp [Peer.exported, hkeyless]

theorem Acl.exported_same (acl : Acl) :
    acl.exported.same acl = true ↔
      ∀ peer ∈ acl.peers, peer.type.isKeyless = true → peer.keyInfo = none := by
  have hrules : sameElements (· == ·) acl.rules acl.rules = true := by
    simpa using sameElements_map (· == ·) id acl.rules
  rw [Acl.same, Acl.exported, hrules, Bool.and_true, sameElements_map]
  simp only [Peer.exported_same]

/-- Peers of the types that no key identifies hold none. -/
def PermissionPolicy.KeysRelevant (policy : PermissionPolicy) : Prop :=
  ∀ acl ∈ policy.acls, ∀ peer ∈ acl.peers, peer.type.isKeyless = true → peer.keyInfo = none

theorem importedAcls_same (policy : PermissionPolicy) (old : List Acl) :
    sameElements Acl.same (if policy.acls.isEmpty then old else policy.acls.map Acl.exported)
        policy.acls = true ↔
      (policy.acls = [] → old = []) ∧ policy.KeysRelevant := by
  cases hacls : policy.acls with
  | nil =>
    have hrelevant : policy.KeysRelevant := by simp [PermissionPolicy.KeysRelevant, hacls]
    simp [sameElements, hrelevant]
  | cons acl rest =>
    rw [if_neg (by simp), sameElements_map, PermissionPolicy.KeysRelevant, hacls]
    simp [Acl.exported_same]

/-- `policy` is exported, the argument is imported into `target` given the
specification version of `policy`, and `target` is then equal to `policy`. -/
def PermissionPolicy.RoundTrips (junk : Nat → UInt8) (policy target : PermissionPolicy) : Prop :=
  ∃ arg imported, policy.exportArg junk = .ok arg ∧
    target.importArg policy.specificationVersion arg = (.ok, imported) ∧
    imported.same policy = true

/-- A legal policy reaches another object by export and import exactly when
that object held the same specification version before, held no ACLs if the
policy has none, and the policy has no key where keys do not matter. -/
theorem roundTrips_iff_targetAccepts (junk : Nat → UInt8) (policy target : PermissionPolicy)
    (hlegal : policy.Legal) :
    policy.RoundTrips junk target ↔
      target.specificationVersion = policy.specificationVersion ∧
        (policy.acls = [] → target.acls = []) ∧ policy.KeysRelevant := by
  obtain ⟨arg, hexport, himport⟩ := exportArg_legal junk hlegal
  have himported := himport policy.specificationVersion target
  constructor
  · rintro ⟨_, imported, hexported, hok, hsame⟩
    cases hexport.symm.trans hexported
    rw [himported] at hok
    split at hok
    · cases hok
    · rename_i hversion
      cases hok
      rw [PermissionPolicy.same, Bool.and_eq_true, importedAcls_same] at hsame
      exact ⟨not_not.mp hversion, hsame.2⟩
  · rintro ⟨hversion, hacls⟩
    rw [if_neg (not_not.mpr hversion)] at himported
    refine ⟨arg, _, hexport, himported, ?_⟩
    rw [PermissionPolicy.same, (importedAcls_same policy target.acls).mpr hacls]
    simp

/-- One member may call everything in one interface. -/
def memberAcl : Acl where
  peers := [⟨.withMembership, Vector.replicate 16 7,
    some ⟨[1, 2], ⟨Vector.replicate 32 3, Vector.replicate 32 4⟩⟩⟩]
  rules := [⟨star, [111, 114, 103], [⟨star, .methodCall, actionModify⟩]⟩]

def memberPolicy : PermissionPolicy := ⟨1, 5, [memberAcl]⟩

theorem memberAcl_legal : memberAcl.Legal where
  peerCount := by decide
  peers := by simp [memberAcl, Peer.Legal, maxArrayLen]
  ruleCount := by decide
  rules := by
    intro rule hmem
    cases List.mem_singleton.mp hmem
    exact ⟨by decide +kernel, by decide +kernel, by decide, by decide +kernel⟩

theorem roundTrips_memberPolicy :
    memberPolicy.Legal ∧ memberPolicy.RoundTrips 0 ⟨1, 4, [⟨[], []⟩]⟩ := by
  have hlegal : memberPolicy.Legal :=
    ⟨by decide, List.forall_mem_singleton.mpr memberAcl_legal⟩
  refine ⟨hlegal, (roundTrips_iff_targetAccepts 0 memberPolicy _ hlegal).mpr ⟨rfl, ?_, ?_⟩⟩
  · intro hacls
    cases hacls
  · simp [PermissionPolicy.KeysRelevant, memberPolicy, memberAcl, PeerType.isKeyless]

/-- A policy that revokes every ACL is imported without an error, and the ACL
of the importing object stays in force. -/
theorem emptyPolicy_keeps_acls :
    let empty : PermissionPolicy := ⟨1, 6, []⟩
    empty.Legal ∧ ¬empty.RoundTrips 0 memberPolicy ∧
      ∃ arg, empty.exportArg 0 = .ok arg ∧
        memberPolicy.importArg 1 arg = (.ok, ⟨1, 6, [memberAcl]⟩) := by
  intro empty
  have hlegal : empty.Legal := ⟨by decide, by simp [empty]⟩
  obtain ⟨arg, hexport, himport⟩ := exportArg_legal 0 hlegal
  have hkept : memberPolicy.importArg 1 arg = (.ok, ⟨1, 6, [memberAcl]⟩) := by
    rw [himport 1 memberPolicy]
    rfl
  refine ⟨hlegal, ?_, arg, hexport, hkept⟩
  rintro ⟨_, imported, hexported, hok, hsame⟩
  cases hexport.symm.trans hexported
  cases hkept.symm.trans hok
  cases hsame

end AllJoyn.Policy
