import AllJoyn.Lib.Ring
import AllJoyn.Lib.SeqNum
import AllJoyn.Status

/-!
Connection records of ARDP, the reliable datagram protocol of the UDP transport
(`ArdpProtocol.cc`): what the two sides of a connection keep about the segments
they send and receive. The buffers of a side are `SEGMAX` slots linked in a
circle; the buffer of sequence number `seq` is slot `seq % SEGMAX`.
-/

namespace AllJoyn.Ardp

open Lib.SeqNum Lib

/-- `ARDP_MAX_WINDOW_SIZE`. -/
def maxWindowSize : Nat := 448

/-- A segment (`ArdpSeg`) with the EACK words and the data that follow its
header. `DLEN` is the length of the data. -/
structure Seg where
  syn : Bool
  ack : Bool
  eack : Bool
  rst : Bool
  nul : Bool
  SEQ : Seq
  ACK : Seq
  LCS : Seq
  ACKNXT : Seq
  SOM : Seq
  TTL : BitVec 32
  FCNT : BitVec 16
  mask : List (BitVec 32)
  data : List UInt8
  deriving DecidableEq

/-- `ArdpRcvBuf`; `inUse` and `delivered` are its flags. -/
structure RcvBuf where
  seq : Seq
  som : Seq
  fcnt : BitVec 16
  ttl : BitVec 32
  tRecv : BitVec 32
  inUse : Bool
  delivered : Bool
  data : List UInt8
  deriving DecidableEq

/-- `ArdpEack`: the bit mask of the segments received out of order, in host and
in network order. The first `fixedWords` words are sent (`fixedSz` in bytes). -/
structure Eack where
  mask : Nat → BitVec 32
  htnMask : Nat → BitVec 32
  sz : Nat
  fixedWords : Nat

/-- `ArdpRcv`. -/
structure Rcv where
  CUR : Seq
  IRS : Seq
  LCS : Seq
  SEGMAX : Nat
  buf : Nat → RcvBuf
  eack : Eack

/-- `ArdpSndBuf` with the fields of its header that are kept, and the number
of turns its retransmit timer has left. -/
structure SndBuf where
  seq : Seq
  som : Seq
  fcnt : BitVec 16
  ttl : BitVec 32
  tStart : BitVec 32
  retry : Nat
  inUse : Bool
  data : List UInt8
  deriving DecidableEq

/-- `ArdpSnd`. -/
structure Snd where
  NXT : Seq
  UNA : Seq
  ISS : Seq
  LCS : Seq
  DACKT : BitVec 32
  SEGMAX : Nat
  maxDlen : Nat
  pending : Nat
  thinNXT : Seq
  thinSEGMAX : Nat
  thinWindow : Nat
  buf : Nat → SndBuf

inductive State where
  | closed
  | closeWait
  | listen
  | synSent
  | synRcvd
  | isOpen
  deriving DecidableEq, Repr

/-- `ArdpConnRecord`. Timers other than those of the send buffers and the
round-trip estimates are left to the environment; `trafficJam` is that of the
handle. -/
structure Conn where
  state : State
  passive : Bool
  snd : Snd
  rcv : Rcv
  window : Nat
  remoteMskSz : Nat
  modeSimple : Bool
  trafficJam : Bool

/-- The slot of a sequence number. -/
def Rcv.slot (rcv : Rcv) (seq : Seq) : Nat := seq.toNat % rcv.SEGMAX

def Rcv.next (rcv : Rcv) (slot : Nat) : Nat := Ring.next rcv.SEGMAX slot

def Snd.slot (snd : Snd) (seq : Seq) : Nat := seq.toNat % snd.SEGMAX

def Snd.next (snd : Snd) (slot : Nat) : Nat := Ring.next snd.SEGMAX slot

end AllJoyn.Ardp
