import AllJoyn.Policy.Data
import AllJoyn.Wire.Access

/-!
Policies as message arguments: `PermissionPolicy::Export` and
`PermissionPolicy::Import` with their helpers (`PermissionPolicy.cc`), the key
arguments of `KeyInfoHelper.cc`, and the comparison operators of the policy
classes.
-/

namespace AllJoyn.Policy

open Wire

/-! ### Formats -/

/-- `(yyayayay)` -/
def keyInfoFormat : Ty :=
  .struct [.scalar .byte, .scalar .byte, .array (.scalar .byte), .array (.scalar .byte),
    .array (.scalar .byte)]

/-- `(ya(yyayayay)ay)` -/
def peerFormat : Ty := .struct [.scalar .byte, .array keyInfoFormat, .array (.scalar .byte)]

/-- `(syy)` -/
def memberFormat : Ty := .struct [.string, .scalar .byte, .scalar .byte]

/-- `(ssa(syy))` -/
def ruleFormat : Ty := .struct [.string, .string, .array memberFormat]

/-- `(a(ya(yyayayay)ay)a(ssa(syy)))` -/
def aclFormat : Ty := .struct [.array peerFormat, .array ruleFormat]

/-- `(qua(a(ya(yyayayay)ay)a(ssa(syy))))` -/
def policyFormat : Ty := .struct [.scalar .uint16, .scalar .uint32, .array aclFormat]

def bytes (data : List UInt8) : Parameter := .numbers (data.map UInt8.toNat)

/-- The first `size` bytes at an address. -/
def toBytes (size : Nat) (values : List Nat) : Vector UInt8 size :=
  Vector.ofFn fun index => UInt8.ofNat (values.getD index 0)

/-! ### Enumerations -/

def MemberType.toNat : MemberType → Nat
  | .notSpecified => 0
  | .methodCall => 1
  | .signal => 2
  | .property => 3

def MemberType.ofNat? : Nat → Option MemberType
  | 0 => some .notSpecified
  | 1 => some .methodCall
  | 2 => some .signal
  | 3 => some .property
  | _ => none

def PeerType.toNat : PeerType → Nat
  | .all => 0
  | .anyTrusted => 1
  | .fromCertificateAuthority => 2
  | .withPublicKey => 3
  | .withMembership => 4

def PeerType.ofNat? : Nat → Option PeerType
  | 0 => some .all
  | 1 => some .anyTrusted
  | 2 => some .fromCertificateAuthority
  | 3 => some .withPublicKey
  | 4 => some .withMembership
  | _ => none

/-- The peer types that are not identified by a key. -/
def PeerType.isKeyless : PeerType → Bool
  | .all | .anyTrusted => true
  | _ => false

def algorithmEcdsaSha256 : Nat := 0

def eccNistP256 : Nat := 0

/-- `ECC_COORDINATE_SZ`. -/
def eccCoordinateSize : Nat := 32

/-- `GUID128::SIZE`. -/
def guidSize : Nat := 16

/-- `GUID128(0)`, the group of a peer that was given none. -/
def guidZero : Vector UInt8 16 := Vector.replicate 16 0

/-! ### Export -/

section Export

variable (junk : Nat → UInt8)

/-- `KeyInfoNISTP256PubKeyToMsgArg` with the key id. That `Set` succeeds is
only asserted; the argument stays invalid where it does not. -/
def keyInfoNISTP256PubKeyToMsgArg (keyInfo : KeyInfoNISTP256) : MsgArg :=
  match MsgArg.set junk keyInfoFormat
      [.number algorithmEcdsaSha256, .number eccNistP256, bytes keyInfo.keyId,
        bytes keyInfo.publicKey.x.toList, bytes keyInfo.publicKey.y.toList] with
  | .ok arg => arg
  | .error _ => .invalid

/-- One turn of the loop of `GeneratePeerArgs`. -/
def generatePeerArg (peer : Peer) : Except QStatus MsgArg := do
  let keyInfoArgs ←
    if peer.type.isKeyless then Except.ok []
    else match peer.keyInfo with
      | none => .error .invalidData
      | some keyInfo => .ok [keyInfoNISTP256PubKeyToMsgArg junk keyInfo]
  let securityGroupId := if peer.type = .withMembership then peer.securityGroupId.toList else []
  MsgArg.set junk peerFormat
    [.number peer.type.toNat, .args keyInfoArgs, bytes securityGroupId]

/-- One turn of the loop of `GenerateMemberArgs`. -/
def generateMemberArg (member : Member) : Except QStatus MsgArg :=
  MsgArg.set junk memberFormat
    [.text (some member.memberName), .number member.memberType.toNat,
      .number member.actionMask.toNat]

/-- One turn of the loop of `GenerateRuleArgs`. -/
def generateRuleArg (rule : Rule) : Except QStatus MsgArg := do
  let ruleMembersArgs ← rule.members.mapM (generateMemberArg junk)
  MsgArg.set junk ruleFormat
    [.text (some rule.objPath), .text (some rule.interfaceName), .args ruleMembersArgs]

/-- One turn of the loop of `PermissionPolicy::Export`. -/
def generateAclArg (acl : Acl) : Except QStatus MsgArg := do
  let peersArgs ← acl.peers.mapM (generatePeerArg junk)
  let rulesArgs ← acl.rules.mapM (generateRuleArg junk)
  MsgArg.set junk aclFormat [.args peersArgs, .args rulesArgs]

/-- `PermissionPolicy::Export`. -/
def PermissionPolicy.exportArg (policy : PermissionPolicy) : Except QStatus MsgArg := do
  let aclsArgs ← policy.acls.mapM (generateAclArg junk)
  MsgArg.set junk policyFormat
    [.number policy.specificationVersion.toNat, .number policy.version.toNat, .args aclsArgs]

end Export

/-! ### Import -/

/-- `MsgArgToKeyInfoNISTP256PubKey` with the key id. -/
def msgArgToKeyInfoNISTP256PubKey (arg : MsgArg) : Except QStatus KeyInfoNISTP256 :=
  match arg.get keyInfoFormat with
  | .ok [.number algorithm, .number curve, .numbers id, .numbers xCoord, .numbers yCoord] =>
    if algorithm ≠ algorithmEcdsaSha256 then .error .invalidData
    else if curve ≠ eccNistP256 then .error .invalidData
    else if xCoord.length ≠ eccCoordinateSize ∨ yCoord.length ≠ eccCoordinateSize then
      .error .invalidData
    else .ok ⟨id.map UInt8.ofNat, toBytes 32 xCoord, toBytes 32 yCoord⟩
  | _ => .error .invalidData

/-- One turn of the loop of `BuildPeersFromArg`. -/
def buildPeerFromArg (arg : MsgArg) : Except QStatus Peer := do
  match ← arg.get peerFormat with
  | [.number peerType, .args pubKeys, .numbers sgId] =>
    match PeerType.ofNat? peerType with
    | none => .error .invalidData
    | some type =>
      if type.isKeyless then .ok ⟨type, guidZero, none⟩
      else match pubKeys with
        | [] => .error .invalidData
        | pubKey :: _ => do
          if type = .withMembership ∧ sgId.length ≠ guidSize then
            Except.error QStatus.invalidData
          let keyInfo ← msgArgToKeyInfoNISTP256PubKey pubKey
          let securityGroupId :=
            if type = .withMembership then toBytes 16 sgId else guidZero
          return ⟨type, securityGroupId, some keyInfo⟩
  | _ => .error .busSignatureMismatch

/-- One turn of the loop of `BuildMembersFromArg`. -/
def buildMemberFromArg (arg : MsgArg) : Except QStatus Member := do
  match ← arg.get memberFormat with
  | [.text str, .number memberType, .number actionMask] =>
    match MemberType.ofNat? memberType with
    | none => .error .invalidData
    | some type => .ok ⟨cString (str.getD []), type, BitVec.ofNat 8 actionMask⟩
  | _ => .error .busSignatureMismatch

/-- One turn of the loop of `BuildRulesFromArgArray`. -/
def buildRuleFromArg (arg : MsgArg) : Except QStatus Rule := do
  match ← arg.get ruleFormat with
  | [.text objPath, .text interfaceName, .args membersArgs] => do
    let members ← membersArgs.mapM buildMemberFromArg
    return ⟨cString (objPath.getD []), cString (interfaceName.getD []), members⟩
  | _ => .error .busSignatureMismatch

/-- One turn of the loop of `BuildAclsFromArg`. -/
def buildAclFromArg (arg : MsgArg) : Except QStatus Acl := do
  match ← arg.get aclFormat with
  | [.args peersArgs, .args rulesArgs] => do
    let peers ← peersArgs.mapM buildPeerFromArg
    let rules ← rulesArgs.mapM buildRuleFromArg
    return ⟨peers, rules⟩
  | _ => .error .busSignatureMismatch

/-- `PermissionPolicy::Import` into the policy object `policy`. It is the
version the object had before that is compared with the expected one, and an
argument without ACLs leaves the ACLs of the object alone. -/
def PermissionPolicy.importArg (expectedVersion : BitVec 16) (arg : MsgArg)
    (policy : PermissionPolicy) : QStatus × PermissionPolicy :=
  match arg.get policyFormat with
  | .error status => (status, policy)
  | .ok [.number specVersion, .number policyVersion, .args aclsArgs] =>
    if policy.specificationVersion ≠ expectedVersion then (.invalidData, policy)
    else
      let policy := { policy with
        specificationVersion := BitVec.ofNat 16 specVersion
        version := BitVec.ofNat 32 policyVersion }
      if aclsArgs.isEmpty then (.ok, policy)
      else match aclsArgs.mapM buildAclFromArg with
        | .error status => (status, policy)
        | .ok acls => (.ok, { policy with acls := acls })
  | .ok _ => (.busSignatureMismatch, policy)

/-! ### Comparison -/

/-- Arrays of the same size whose elements are the same one by one. -/
def sameElements {A : Type} (same : A → A → Bool) (first second : List A) : Bool :=
  first.length == second.length && (first.zip second).all fun (a, b) => same a b

/-- `Peer::operator==`: the security group counts for a membership only. -/
def Peer.same (first second : Peer) : Bool :=
  first.type == second.type &&
    (first.type != .withMembership || first.securityGroupId == second.securityGroupId) &&
    first.keyInfo == second.keyInfo

/-- `Acl::operator==`. -/
def Acl.same (first second : Acl) : Bool :=
  sameElements Peer.same first.peers second.peers && sameElements (· == ·) first.rules second.rules

/-- The same versions and the same ACLs in the same order. -/
def PermissionPolicy.same (first second : PermissionPolicy) : Bool :=
  first.specificationVersion == second.specificationVersion &&
    first.version == second.version && sameElements Acl.same first.acls second.acls

end AllJoyn.Policy
