import AllJoyn.Policy.Data

/-!
The evaluation of a request against a policy (`PermissionManager.cc`), with the
wildcard matching it uses (`BusUtil.cc`). The flag `denied` that the loops of
the source pass by reference is the second component of their result.
-/

namespace AllJoyn.Policy

/-- The loop of `WildcardMatch` over what is left of the pattern and of the
string; true means that they differ. -/
def wildcardLoop : List UInt8 → List UInt8 → Bool
  | [], [] => false
  | [], _ :: _ => true
  | p :: _, [] => p ≠ 42
  | p :: pattern, s :: text =>
    if p = 42 then
      match pattern with
      | [] => false
      | next :: pattern =>
        if next = 42 ∨ next = 63 then true
        else
          match (s :: text).dropWhile (· ≠ next) with
          | [] => true
          | _ :: text => wildcardLoop pattern text
    else if p = 63 then wildcardLoop pattern text
    else if p ≠ s then true
    else wildcardLoop pattern text

/-- `WildcardMatch`; zero length strings are unmatchable. -/
def wildcardMatch (text pattern : List UInt8) : Bool :=
  if pattern = [] ∨ text = [] then true else wildcardLoop pattern text

def matchesPrefix (text pattern : List UInt8) : Bool :=
  !wildcardMatch text pattern

structure Request where
  outgoing : Bool
  propertyRequest : Bool
  isSetProperty : Bool
  objPath : List UInt8
  iName : List UInt8
  /-- Empty for a null pointer. -/
  mbrName : List UInt8
  mbrType : MemberType
  deriving DecidableEq

def isActionDenied (allowedActions : BitVec 8) : Bool :=
  allowedActions = 0#8

def isActionAllowed (allowedActions requestedAction : BitVec 8) : Bool :=
  allowedActions &&& requestedAction = requestedAction

/-- `GenRight`; zero when the request needs no right. -/
def genRight (request : Request) : BitVec 8 :=
  if request.propertyRequest then
    if request.mbrType = .signal then
      if request.outgoing then actionObserve else actionProvide
    else if request.isSetProperty then
      if request.outgoing then actionProvide else actionModify
    else if request.outgoing then actionProvide
    else actionObserve
  else if request.mbrType = .methodCall then
    if request.outgoing then actionProvide else actionModify
  else if request.mbrType = .signal then
    if request.outgoing then actionObserve else actionProvide
  else 0#8

/-- The member loop of `IsRuleMatched` for a request without a member name, the
`GetAllProperties` call. -/
def getAllLoop (requiredAuth : BitVec 8) (scanForDenied strictGetAllProperties : Bool) :
    List Member → Bool → Bool × Bool
  | [], allowed => (allowed, false)
  | m :: rest, allowed =>
    if m.memberName = [] then
      getAllLoop requiredAuth scanForDenied strictGetAllProperties rest allowed
    else if m.memberName = star then
      if scanForDenied ∧ isActionDenied m.actionMask then (false, true)
      else if m.memberType ≠ .property ∧ m.memberType ≠ .notSpecified then
        getAllLoop requiredAuth scanForDenied strictGetAllProperties rest allowed
      else
        let allowed := allowed || isActionAllowed m.actionMask requiredAuth
        if allowed && !scanForDenied then (allowed, false)
        else getAllLoop requiredAuth scanForDenied strictGetAllProperties rest allowed
    else
      let allowed := allowed || !strictGetAllProperties
      if allowed && !scanForDenied then (allowed, false)
      else getAllLoop requiredAuth scanForDenied strictGetAllProperties rest allowed

/-- The member loop of `IsRuleMatched` for a request with a member name. -/
def namedLoop (request : Request) (requiredAuth : BitVec 8) (scanForDenied : Bool) :
    List Member → Bool → Bool × Bool
  | [], allowed => (allowed, false)
  | m :: rest, allowed =>
    if m.memberName = [] then namedLoop request requiredAuth scanForDenied rest allowed
    else if ¬ (m.memberName = request.mbrName ∨ matchesPrefix request.mbrName m.memberName) then
      namedLoop request requiredAuth scanForDenied rest allowed
    else if m.memberType ≠ .notSpecified ∧ request.mbrType ≠ m.memberType then
      namedLoop request requiredAuth scanForDenied rest allowed
    else if scanForDenied ∧ m.memberName = star ∧ isActionDenied m.actionMask then (false, true)
    else
      let allowed := allowed || isActionAllowed m.actionMask requiredAuth
      if allowed && !scanForDenied then (allowed, false)
      else namedLoop request requiredAuth scanForDenied rest allowed

def isRuleMatched (rule : Rule) (request : Request) (requiredAuth : BitVec 8)
    (scanForDenied strictGetAllProperties : Bool) : Bool × Bool :=
  if rule.members = [] then (false, false)
  else if rule.objPath = [] then (false, false)
  else if rule.interfaceName = [] then (false, false)
  else if ¬ (rule.objPath = request.objPath ∨ matchesPrefix request.objPath rule.objPath) then
    (false, false)
  else if ¬ (rule.interfaceName = request.iName ∨
      matchesPrefix request.iName rule.interfaceName) then (false, false)
  else
    -- an explicit deny needs both wildcards in the rule
    let scanForDenied := scanForDenied && rule.objPath = star && rule.interfaceName = star
    if request.mbrName = [] then
      if request.propertyRequest = false then (false, false)
      else getAllLoop requiredAuth scanForDenied strictGetAllProperties rule.members false
    else namedLoop request requiredAuth scanForDenied rule.members false

/-- The rule loop of `IsPolicyAclMatched`. -/
def rulesLoop (request : Request) (requiredAuth : BitVec 8) (scanForDenied : Bool) :
    List Rule → Bool → Bool × Bool
  | [], allowed => (allowed, false)
  | rule :: rest, allowed =>
    match isRuleMatched rule request requiredAuth scanForDenied request.outgoing with
    | (true, _) => rulesLoop request requiredAuth scanForDenied rest true
    | (false, true) => (allowed, true)
    | (false, false) => rulesLoop request requiredAuth scanForDenied rest allowed

def isPolicyAclMatched (acl : Acl) (request : Request) (requiredAuth : BitVec 8)
    (scanForDenied : Bool) : Bool × Bool :=
  rulesLoop request requiredAuth scanForDenied acl.rules false

/-- The first certificate of a membership chain: whether it is a membership
certificate, and for which security group. -/
structure Certificate where
  isMembership : Bool
  guild : Vector UInt8 16
  deriving DecidableEq

/-- What is known about the remote peer. -/
structure Credentials where
  trustedPeer : Bool
  publicKey : Option ECCPublicKey
  issuerChain : List ECCPublicKey
  guildMap : List (List Certificate)
  deriving DecidableEq

/-- The entry names the peer's own public key. -/
def namesKey (credentials : Credentials) (peer : Peer) : Bool :=
  credentials.trustedPeer &&
    credentials.publicKey.any fun key =>
      peer.type = .withPublicKey && peer.keyInfo.any (·.publicKey = key)

def holdsMembership (credentials : Credentials) (peer : Peer) : Bool :=
  credentials.guildMap.any fun certChain =>
    certChain.head?.any fun certificate =>
      certificate.isMembership && peer.securityGroupId = certificate.guild

/-- The peer loop of `IsPeerQualifiedForAcl`; the second component is
`qualifiedPeerWithPublicKey`. -/
def isPeerQualifiedLoop (credentials : Credentials) : List Peer → Bool × Bool
  | [] => (false, false)
  | peer :: rest =>
    if peer.type = .all then (true, false)
    else if credentials.trustedPeer = false then isPeerQualifiedLoop credentials rest
    else if peer.type = .anyTrusted then (true, false)
    else
      match credentials.publicKey with
      | none => isPeerQualifiedLoop credentials rest
      | some key =>
        if peer.type = .withPublicKey ∧ peer.keyInfo.any (·.publicKey = key) then (true, true)
        else if peer.type = .fromCertificateAuthority ∧
            peer.keyInfo.any (·.publicKey ∈ credentials.issuerChain) then (true, false)
        else if peer.type = .withMembership ∧ holdsMembership credentials peer then
          (true, false)
        else isPeerQualifiedLoop credentials rest

def isPeerQualifiedForAcl (acl : Acl) (credentials : Credentials) : Bool × Bool :=
  isPeerQualifiedLoop credentials acl.peers

/-- The list loop of `IsPeerAuthorized`: whether a list allows the request, and
whether one denies it. -/
def aclsLoop (request : Request) (credentials : Credentials) (requiredAuth : BitVec 8) :
    List Acl → Bool → Bool × Bool
  | [], allowed => (allowed, false)
  | acl :: rest, allowed =>
    match isPeerQualifiedForAcl acl credentials with
    | (false, _) => aclsLoop request credentials requiredAuth rest allowed
    | (true, withPublicKey) =>
      match isPolicyAclMatched acl request requiredAuth withPublicKey with
      | (matched, true) => (allowed || matched, true)
      | (matched, false) => aclsLoop request credentials requiredAuth rest (allowed || matched)

def isPeerAuthorized (request : Request) (policy : PermissionPolicy)
    (credentials : Credentials) (requiredAuth : BitVec 8) : Bool × Bool :=
  aclsLoop request credentials requiredAuth policy.acls false

/-- What `IsAuthorized` makes of the policy, before the manifest is looked at. -/
def isAuthorizedByPolicy (request : Request) (policy : PermissionPolicy)
    (credentials : Credentials) : Bool :=
  if genRight request = 0#8 then false
  else
    let (authorized, denied) := isPeerAuthorized request policy credentials (genRight request)
    authorized && !denied

/-- The rule loop of `IsAuthorizedByPeerManifest`. -/
def manifestLoop (request : Request) (right : BitVec 8) : List Rule → Bool
  | [] => false
  | rule :: rest =>
    match isRuleMatched rule request right false request.outgoing with
    | (true, _) => true
    | (false, true) => false
    | (false, false) => manifestLoop request right rest

/-- `IsAuthorizedByPeerManifest`; a missing manifest is an empty one. -/
def isAuthorizedByPeerManifest (request : Request) (right : BitVec 8) (manifest : List Rule) :
    Bool :=
  manifestLoop request right manifest

/-- How the peer of a request was authenticated. -/
inductive PeerAuth where
  | unauthenticated
  /-- The local peer, with the application's own key if it has one. -/
  | localPeer (publicKey : Option ECCPublicKey)
  /-- Metadata of the connection; a mechanism based on a shared secret makes the
  peer trusted without a key. -/
  | connected (publicKey : Option ECCPublicKey) (sharedSecret : Bool)
      (issuers : List ECCPublicKey)
  | keyUnavailable
  | failed

/-- The credentials `IsAuthorized` derives, and whether it enforces the
manifest. -/
def PeerAuth.credentials (guildMap : List (List Certificate)) : PeerAuth → Credentials × Bool
  | .unauthenticated => (⟨false, none, [], guildMap⟩, true)
  | .localPeer (some key) => (⟨true, some key, [], guildMap⟩, false)
  | .localPeer none => (⟨false, none, [], guildMap⟩, true)
  | .connected (some key) _ issuers => (⟨true, some key, issuers, guildMap⟩, true)
  | .connected none sharedSecret issuers => (⟨sharedSecret, none, issuers, guildMap⟩, false)
  | .keyUnavailable => (⟨false, none, [], guildMap⟩, false)
  | .failed => (⟨false, none, [], guildMap⟩, true)

def isAuthorized (request : Request) (policy : Option PermissionPolicy) (auth : PeerAuth)
    (guildMap : List (List Certificate)) (manifest : List Rule) : Bool :=
  match policy with
  | none => false
  | some policy =>
    let (credentials, enforceManifest) := auth.credentials guildMap
    if isAuthorizedByPolicy request policy credentials = false then false
    else if enforceManifest then
      isAuthorizedByPeerManifest request (genRight request) manifest
    else true

end AllJoyn.Policy
