import Mathlib.Data.List.Basic

/-!
The permission policy of an application (`PermissionPolicy.h`): access control
lists, each with the peers it applies to and the rules it grants them. Strings
are the bytes between the quotes, without a terminator.
-/

namespace AllJoyn.Policy

inductive MemberType where
  | notSpecified
  | methodCall
  | signal
  | property
  deriving DecidableEq, Repr

def actionProvide : BitVec 8 := 0x01#8
def actionObserve : BitVec 8 := 0x02#8
def actionModify : BitVec 8 := 0x04#8

structure Member where
  memberName : List UInt8
  memberType : MemberType
  actionMask : BitVec 8
  deriving DecidableEq

structure Rule where
  objPath : List UInt8
  interfaceName : List UInt8
  members : List Member
  deriving DecidableEq

/-- `ECCPublicKey`: two coordinates of `ECC_COORDINATE_SZ` bytes. -/
structure ECCPublicKey where
  x : Vector UInt8 32
  y : Vector UInt8 32
  deriving DecidableEq

/-- `KeyInfoNISTP256`. Its format, curve and point form are constants. -/
structure KeyInfoNISTP256 where
  keyId : List UInt8
  publicKey : ECCPublicKey
  deriving DecidableEq

inductive PeerType where
  | all
  | anyTrusted
  | fromCertificateAuthority
  | withPublicKey
  | withMembership
  deriving DecidableEq, Repr

structure Peer where
  type : PeerType
  securityGroupId : Vector UInt8 16
  keyInfo : Option KeyInfoNISTP256
  deriving DecidableEq

structure Acl where
  peers : List Peer
  rules : List Rule
  deriving DecidableEq

structure PermissionPolicy where
  specificationVersion : BitVec 16
  version : BitVec 32
  acls : List Acl
  deriving DecidableEq

/-- The one-character string `*`. -/
def star : List UInt8 := [42]

end AllJoyn.Policy
