import Mathlib.Logic.Basic

namespace AllJoyn

/-- The `QStatus` codes that the modelled functions name. A callee that is not
modelled may return any other code of the enumeration. -/
inductive QStatus where
  | ok
  | fail
  | wouldBlock
  | outOfMemory
  | invalidData
  | notImplemented
  | busEmptyMessage
  | busBusNotStarted
  | busHandlesNotEnabled
  | busAuthenticationPending
  | busKeyUnavailable
  | busNotAuthorized
  | busBadValue
  | busBadValueType
  | busBadLength
  | busBadSignature
  | busBadObjPath
  | busNotNulTerminated
  | busSignatureMismatch
  | busNoSuchHandle
  | busNoEndpoint
  | permissionDenied
  | ardpInvalidResponse
  | ardpInvalidState
  | ardpBackpressure
  | ardpTtlExpired
  | ardpDisconnecting
  | ardpRemoteConnectionReset
  | timeout
  | eof
  | corruptKeyBlob
  | badArg1
  | busKeystoreNotLoaded
  | busCorruptKeystore
  | busKeystoreVersionMismatch
  | busNameTooLong
  | busBadInterfaceName
  | busBadMemberName
  | busBadErrorName
  | busBadBusName
  | busInterfaceMissing
  | busPathMissing
  | busMemberMissing
  | busErrorNameMissing
  | busReplySerialMissing
  | busBadHeaderField
  | busBadHeaderLen
  | busBadBodyLen
  | busHandlesMismatch
  | busUnexpectedSignature
  | busInvalidHeaderSerial
  | busTimeToLiveExpired
  | alertedThread
  | slapInvalidPacketLen
  | slapInvalidPacketType
  | slapLenMismatch
  | slapCrcError
  | slapError
  | other (code : Nat)
  deriving DecidableEq, Repr

end AllJoyn
