import Mathlib.Data.List.Basic

/-!
Access control of the thin client (`aj_authorisation.c`): for every member of a
secured interface a byte of permissions per peer, collected from the rules of
the policy, of the memberships and of the manifests of the peer. Strings are
the bytes before the terminator.
-/

namespace AllJoyn.ThinClient

abbrev Str := List UInt8

/-! ### Policies -/

structure PermissionMember where
  mbr : Str
  type : UInt8
  action : UInt8
  deriving DecidableEq, Repr

structure PermissionRule where
  obj : Str
  ifn : Str
  members : List PermissionMember
  deriving DecidableEq, Repr

structure ECCPublicKey where
  alg : UInt8
  crv : UInt8
  x : Vector UInt8 32
  y : Vector UInt8 32
  deriving DecidableEq, Repr

structure PermissionPeer where
  type : UInt8
  pub : ECCPublicKey
  group : List UInt8
  deriving DecidableEq, Repr

structure PermissionACL where
  peers : List PermissionPeer
  rules : List PermissionRule
  deriving DecidableEq, Repr

structure Policy where
  acls : List PermissionACL
  deriving DecidableEq, Repr

def memberTypeAny : UInt8 := 0
def memberTypeMethod : UInt8 := 1
def memberTypeSignal : UInt8 := 2
def memberTypeProperty : UInt8 := 3

def actionProvide : UInt8 := 0x1
def actionObserve : UInt8 := 0x2
def actionModify : UInt8 := 0x4

def peerTypeAll : UInt8 := 0
def peerTypeAnyTrusted : UInt8 := 1
def peerTypeFromCa : UInt8 := 2
def peerTypeWithPublicKey : UInt8 := 3
def peerTypeWithMembership : UInt8 := 4

/-! ### The access table -/

/-- A member of the access table, with what it holds for one peer. -/
structure AccessControlMember where
  id : UInt32
  obj : Str
  ifn : Str
  mbr : Str
  deny : Bool
  allow : UInt8
  deriving DecidableEq, Repr

def policyMethodIncoming : UInt8 := 0x01
def policyMethodOutgoing : UInt8 := 0x02
def policyPrpsetIncoming : UInt8 := 0x04
def policyPrpsetOutgoing : UInt8 := 0x08
def policySignalIncoming : UInt8 := policyMethodIncoming
def policySignalOutgoing : UInt8 := policyMethodOutgoing
def policyPrpgetIncoming : UInt8 := policyMethodIncoming
def policyPrpgetOutgoing : UInt8 := policyMethodOutgoing
def policyIncoming : UInt8 := policyMethodIncoming ||| policyPrpsetIncoming
def policyOutgoing : UInt8 := policyMethodOutgoing ||| policyPrpsetOutgoing
def policyAccess : UInt8 := policyIncoming ||| policyOutgoing
def manifestIncoming : UInt8 := policyIncoming <<< 4
def manifestAccess : UInt8 := policyAccess <<< 4

def accessControlReset (table : List AccessControlMember) : List AccessControlMember :=
  table.map fun acm => { acm with allow := 0, deny := false }

/-! ### Rules -/

/-- `MEMBER_TYPE` of the first character of a member. -/
def memberType (c : UInt8) : UInt8 := (c >>> 4) - 2

def signal : UInt8 := memberType 0x21
def method : UInt8 := memberType 0x3F
def property : UInt8 := memberType 0x40

def commonPath : Str → Str → UInt8 → Bool
  | [], desc, type =>
    let next := desc.head?.getD 0
    if type = property then next ∈ [0x3C, 0x3D, 0x3E] else next = 0 || next = 0x20
  | c :: name, desc, type =>
    if c = 0x2A then true
    else
      match desc with
      | [] => false
      | d :: desc => if c ≠ d then false else commonPath name desc type

/-- `MemberType` -/
def matchesMemberType (a b : UInt8) : Bool :=
  if a = memberTypeAny then true
  else if a = memberTypeSignal then b = signal
  else if a = memberTypeMethod then b = method
  else if a = memberTypeProperty then b = property
  else false

/-- The interface without its security annotation. -/
def AccessControlMember.interface (acm : AccessControlMember) : Str :=
  match acm.ifn with
  | c :: ifn => if c = 0x24 || c = 0x23 then ifn else c :: ifn
  | [] => []

def AccessControlMember.type (acm : AccessControlMember) : UInt8 :=
  memberType (acm.mbr.head?.getD 0)

/-- The member without its type and its sessionless annotation. -/
def AccessControlMember.member (acm : AccessControlMember) : Str :=
  match acm.mbr.tail with
  | c :: mbr => if c = 0x26 then mbr else c :: mbr
  | [] => []

def bitsIf (action flag bits : UInt8) : UInt8 := if flag &&& action ≠ 0 then bits else 0

/-- The access that the action of a matching member stands for. -/
def actionAccess (type action : UInt8) : UInt8 :=
  if type = signal then
    bitsIf action actionObserve policySignalOutgoing |||
      bitsIf action actionProvide policySignalIncoming
  else if type = method then
    bitsIf action actionProvide policyMethodOutgoing |||
      bitsIf action actionModify policyMethodIncoming
  else if type = property then
    bitsIf action actionProvide (policyPrpsetOutgoing ||| policyPrpgetOutgoing) |||
      bitsIf action actionModify policyPrpsetIncoming |||
      bitsIf action actionObserve policyPrpgetIncoming
  else 0

/-- The access of a list of rules, and whether they deny. -/
structure RuleAccess where
  acc : UInt8
  deny : Bool
  deriving DecidableEq, Repr

def startsWithStar (s : Str) : Bool := s.head? = some 0x2A

/-- A member of a rule that applies. -/
def memberAccess (acm : AccessControlMember) (withPublicKey : Bool) (rule : PermissionRule)
    (total : RuleAccess) (member : PermissionMember) : RuleAccess :=
  if commonPath member.mbr acm.member acm.type && matchesMemberType member.type acm.type then
    { acc := total.acc ||| actionAccess acm.type member.action
      deny := total.deny || (withPublicKey && startsWithStar rule.obj && startsWithStar rule.ifn &&
        startsWithStar member.mbr && member.action = 0) }
  else total

/-- A rule. -/
def ruleAccess (acm : AccessControlMember) (withPublicKey : Bool) (total : RuleAccess)
    (rule : PermissionRule) : RuleAccess :=
  if commonPath rule.obj acm.obj 0 && commonPath rule.ifn acm.interface 0 then
    rule.members.foldl (memberAccess acm withPublicKey rule) total
  else total

def permissionRuleAccess (rules : List PermissionRule) (acm : AccessControlMember)
    (withPublicKey : Bool) : RuleAccess :=
  rules.foldl (ruleAccess acm withPublicKey) ⟨0, false⟩

/-! ### Applying -/

structure Manifest where
  rules : List PermissionRule
  deriving DecidableEq, Repr

def manifestApply (manifest : Manifest) (table : List AccessControlMember) :
    List AccessControlMember :=
  table.map fun acm =>
    { acm with allow := acm.allow ||| (permissionRuleAccess manifest.rules acm false).acc <<< 4 }

def permissionPeerFind (peers : List PermissionPeer) (type : UInt8) (pub : Option ECCPublicKey)
    (group : List UInt8) : Bool :=
  peers.any fun peer =>
    type = peer.type &&
      (type = peerTypeAll || type = peerTypeAnyTrusted ||
        (some peer.pub = pub && (type ≠ peerTypeWithMembership || group = peer.group)))

def suiteEcdheNull : UInt32 := 0x00400001
def suiteEcdhePsk : UInt32 := 0x00400002
def suiteEcdheEcdsa : UInt32 := 0x00400004

/-- What `AJ_PolicyApply` reads of the authentication: with ECDSA the keys of the
peer's certificates, the subject's first. -/
structure AuthenticationContext where
  suite : UInt32
  keys : List ECCPublicKey
  deriving DecidableEq, Repr

/-- Whether an access control list applies to the peer, and in the second bit
whether it names the peer's own key. -/
def policyFound (ctx : AuthenticationContext) (acl : PermissionACL) : UInt8 :=
  let all : UInt8 := if permissionPeerFind acl.peers peerTypeAll none [] then 1 else 0
  let trusted : UInt8 :=
    if ctx.suite ≠ suiteEcdheNull && permissionPeerFind acl.peers peerTypeAnyTrusted none [] then 1
    else 0
  if ctx.suite = suiteEcdheEcdsa then
    let key : UInt8 :=
      if permissionPeerFind acl.peers peerTypeWithPublicKey ctx.keys.head? [] then 2 else 0
    let found := all ||| trusted ||| key
    if found = 0 ∧ ctx.keys.tail.any fun issuer =>
        permissionPeerFind acl.peers peerTypeFromCa (some issuer) [] then 1
    else found
  else all ||| trusted

/-- The rules of an access control list that applies. -/
def grantPolicy (ctx : AuthenticationContext) (acl : PermissionACL) (acm : AccessControlMember) :
    AccessControlMember :=
  let access := permissionRuleAccess acl.rules acm (policyFound ctx acl >>> 1 ≠ 0)
  let acc := if ctx.suite ≠ suiteEcdheEcdsa then access.acc ||| access.acc <<< 4 else access.acc
  { acm with allow := acm.allow ||| acc, deny := acm.deny || access.deny }

/-- `AJ_SecurityGetClaimConfig` -/
structure ClaimConfig where
  state : UInt16
  capabilities : UInt16
  deriving DecidableEq, Repr

/-- `AJ_BUS_MESSAGE_ID` of a member of the security object. -/
def securityMessageId (i m : UInt32) : UInt32 := (7 : UInt32) <<< 16 ||| i <<< 8 ||| m

/-- The rights without a policy. `Claim` is open to the suites it is configured
for, and the managed application not at all. -/
def initialAccess (ctx : AuthenticationContext) (claim : ClaimConfig) (id : UInt32) : UInt8 :=
  if id ∈ securityMessageId 0 0 :: securityMessageId 3 0 ::
      [0, 1, 2, 3, 4, 5, 6, 7].map (securityMessageId 2) then policyIncoming ||| manifestIncoming
  else if id = securityMessageId 3 1 then
    if claim.state = 1 ∧
        (claim.capabilities &&& 1 ≠ 0 ∧ ctx.suite = suiteEcdheNull ∨
          claim.capabilities &&& 2 ≠ 0 ∧ ctx.suite = suiteEcdhePsk ∨
          claim.capabilities &&& 4 ≠ 0 ∧ ctx.suite = suiteEcdheEcdsa) then
      policyIncoming ||| manifestIncoming
    else 0
  else if id ∈ securityMessageId 0 1 ::
      [0, 1, 2, 3, 4, 5, 6, 7, 8, 9, 10, 11, 12, 13].map (securityMessageId 4) then 0
  else policyAccess ||| manifestAccess

def policyApply (policy : Option Policy) (ctx : AuthenticationContext) (claim : ClaimConfig)
    (table : List AccessControlMember) : List AccessControlMember :=
  match policy with
  | some policy =>
    policy.acls.foldl (fun table acl =>
      if policyFound ctx acl ≠ 0 then table.map (grantPolicy ctx acl) else table) table
  | none => table.map fun acm => { acm with allow := initialAccess ctx claim acm.id }

/-- A membership certificate chain: the keys of its certificates from the root
on, the key of the root's issuer if it is known, and the security group. -/
structure Membership where
  root : List ECCPublicKey
  issuer : Option ECCPublicKey
  group : List UInt8
  deriving DecidableEq, Repr

/-- The search for an intermediate issuer, and the rest of the chain. The last
certificate is not an issuer. -/
def findIssuer (acl : PermissionACL) (group : List UInt8) :
    List ECCPublicKey → Bool × List ECCPublicKey
  | key :: next :: root =>
    if permissionPeerFind acl.peers peerTypeWithMembership (some key) group then
      (true, next :: root)
    else findIssuer acl group (next :: root)
  | root => (false, root)

/-- Whether an access control list names the issuer of the root. -/
def namesIssuer (membership : Membership) (acl : PermissionACL) : Bool :=
  membership.issuer.isSome &&
    permissionPeerFind acl.peers peerTypeWithMembership membership.issuer membership.group

/-- Whether an access control list applies, with `root` where the search for the
one before it ended. -/
def membershipFound (membership : Membership) (acl : PermissionACL) (root : List ECCPublicKey) :
    Bool × List ECCPublicKey :=
  if namesIssuer membership acl then (true, root) else findIssuer acl membership.group root

def grantMembership (acl : PermissionACL) (acm : AccessControlMember) : AccessControlMember :=
  { acm with allow := acm.allow ||| (permissionRuleAccess acl.rules acm false).acc }

/-- The loop of `AJ_MembershipApply`. -/
def membershipLoop (membership : Membership) :
    List PermissionACL → List ECCPublicKey → List AccessControlMember → List AccessControlMember
  | [], _, table => table
  | acl :: acls, root, table =>
    match membershipFound membership acl root with
    | (true, root) => membershipLoop membership acls root (table.map (grantMembership acl))
    | (false, root) => membershipLoop membership acls root table

def membershipApply (policy : Option Policy) (membership : Membership)
    (table : List AccessControlMember) : List AccessControlMember :=
  match policy with
  | some policy => membershipLoop membership policy.acls membership.root table
  | none => table

/-- What a peer presents. -/
structure Presented where
  ctx : AuthenticationContext
  memberships : List Membership
  manifests : List Manifest
  deriving DecidableEq, Repr

/-- The access of a peer, from the reset on. -/
def peerAccess (policy : Option Policy) (claim : ClaimConfig) (peer : Presented)
    (table : List AccessControlMember) : List AccessControlMember :=
  let table := policyApply policy peer.ctx claim (accessControlReset table)
  let table := peer.memberships.foldl (fun table membership =>
    membershipApply policy membership table) table
  peer.manifests.foldl (fun table manifest => manifestApply manifest table) table

end AllJoyn.ThinClient
