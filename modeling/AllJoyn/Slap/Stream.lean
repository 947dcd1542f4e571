import AllJoyn.Lib.GoBackN
import AllJoyn.Lib.Run

/-!
The protocol of `SLAPStream.cc` on a link that is active: packets of bytes with
sequence numbers modulo 8 over a serial line, repeated until they are
acknowledged. Every function here runs with the stream's lock held. A frame on
the line is what `Validate` lets through; one that is damaged is lost.
-/

namespace AllJoyn.Slap

open Lib

/-- A sequence number, modulo 8. -/
abbrev Seq := Fin 8

scoped instance neZero_seq : NeZero 8 := ⟨by decide⟩

inductive ControlType where
  | conn
  | accept
  | nego
  | negoResp
  | disconn
  | disconnResp
  deriving DecidableEq, Repr

/-- The states that a link can be in once it was active. -/
inductive LinkState where
  | active
  | dying
  | dead
  deriving DecidableEq, Repr

inductive Frame where
  | data (seq ack : Seq) (payload : List UInt8)
  | ack (ack : Seq)
  | control (type : ControlType)
  deriving DecidableEq, Repr

structure DataPacket where
  seq : Seq
  payload : List UInt8
  deriving DecidableEq, Repr

/-- What the one packet for acknowledgements and link control was made into. -/
inductive CtrlPacket where
  | ack
  | control (type : ControlType)
  deriving DecidableEq, Repr

/-- An entry of `m_txQueue`. -/
inductive Packet where
  | ctrl
  | data (packet : DataPacket)
  deriving DecidableEq, Repr

/-- `m_txCurrent` while `m_getNextPacket` is false, with the acknowledgement that
its header was made with. The packet for link control loses its header when it
is made into something else in the meantime. -/
inductive Current where
  | ctrl (header : Option (CtrlPacket × Seq))
  | data (packet : DataPacket) (ack : Seq)
  deriving DecidableEq, Repr

structure Endpoint where
  windowSize : Nat
  packetSize : Nat
  protocolVersion : Nat
  /-- `m_streamController->IsOnline()` -/
  online : Bool
  linkState : LinkState
  txQueue : List Packet
  txSent : List DataPacket
  /-- The number of packets in `m_txFreeList`. -/
  txFree : Nat
  txSeqNum : Seq
  current : Option Current
  /-- `m_txCtrl` -/
  ctrl : CtrlPacket
  currentTxAck : Seq
  pendingAcks : UInt8
  expectedSeq : Seq
  /-- `m_rxQueue`: of each packet the bytes that remain. -/
  rxQueue : List (List UInt8)
  /-- The number of packets in `m_rxFreeList`. -/
  rxFree : Nat
  sendAlarm : Bool
  resendAlarm : Bool
  ackAlarm : Bool
  controlAlarm : Bool
  /-- The frames on their way to the other end, the next to arrive first. -/
  line : List Frame
  /-- All the bytes that were put into packets. -/
  pushed : List UInt8
  /-- All the bytes that were returned. -/
  pulled : List UInt8
  deriving DecidableEq, Repr

/-- What becomes of a packet that is handed to the controller: it is written, it
is written in part, or nothing is written and the status is not `ER_OK`. -/
inductive Delivery where
  | sent
  | damaged
  | blocked
  deriving DecidableEq, Repr

/-- What happens at an endpoint, beside the arrival of frames. An alarm or a call
that transmits comes with what becomes of the packets. -/
inductive Action where
  | pushBytes (buf : List UInt8)
  | pullBytes (reqBytes : Nat)
  | sendAlarm (outcomes : List Delivery)
  | resendAlarm (outcomes : List Delivery)
  | ackAlarm (outcomes : List Delivery)
  | controlAlarm
  | goOffline
  | goOnline (outcomes : List Delivery)
  | close
  /-- `Close` has waited long enough. -/
  | closeTimeout
  deriving DecidableEq, Repr

namespace Endpoint

def seqGt (e : Endpoint) (s1 s2 : Seq) : Bool := (7 + s1.val - s2.val) % 8 < e.windowSize

/-! ### Receiving -/

def processDataSeqNum (seq : Seq) (e : Endpoint) : Endpoint :=
  { e with
    currentTxAck := if e.seqGt e.currentTxAck seq then e.currentTxAck else seq + 1
    pendingAcks := e.pendingAcks + 1
    ackAlarm := e.ackAlarm || e.pendingAcks + 1 ≠ 0 }

def processAckNum (ack : Seq) (e : Endpoint) : Endpoint :=
  let txSent := e.txSent.dropWhile fun packet => e.seqGt ack packet.seq
  { e with
    txSent := txSent
    txFree := e.txFree + (e.txSent.length - txSent.length)
    resendAlarm := !txSent.isEmpty }

/-- The data part of `ReadEventTriggered`. -/
def receiveData (seq : Seq) (payload : List UInt8) (e : Endpoint) : Endpoint :=
  if seq ≠ e.expectedSeq then
    if e.seqGt seq e.expectedSeq then e else e.processDataSeqNum seq
  else if e.rxFree = 0 then e
  else
    let e := { e with expectedSeq := e.expectedSeq + 1 }.processDataSeqNum seq
    { e with rxQueue := e.rxQueue ++ [payload], rxFree := e.rxFree - 1 }

/-- `m_txCtrl->Clear()`, and what it is made into. -/
def makeCtrl (content : CtrlPacket) (e : Endpoint) : Endpoint :=
  { e with
    ctrl := content
    current :=
      match e.current with
      | some (.ctrl _) => some (.ctrl none)
      | current => current }

/-- The packet for link control comes first, and is queued once. -/
def queueCtrl (e : Endpoint) : Endpoint :=
  if e.txQueue.head? = some .ctrl then e else { e with txQueue := .ctrl :: e.txQueue }

def enqueueCtrl (type : ControlType) (e : Endpoint) : Endpoint :=
  if e.online then { (e.makeCtrl (.control type)).queueCtrl with sendAlarm := true } else e

def processControlPacket (type : ControlType) (e : Endpoint) : Endpoint :=
  match e.linkState, type with
  | .active, .nego => e.enqueueCtrl .negoResp
  | .active, .conn => { e with linkState := .dead }
  | .active, .disconn => { e.enqueueCtrl .disconnResp with linkState := .dead }
  | .dying, .disconnResp => { e with linkState := .dead }
  | .dying, .disconn => e.enqueueCtrl .disconnResp
  | _, _ => e

/-- `ReadEventTriggered`, for one frame. -/
def receive (frame : Frame) (e : Endpoint) : Endpoint :=
  match frame with
  | .data seq ack payload => (e.processAckNum ack).receiveData seq payload
  | .ack ack => e.processAckNum ack
  | .control type => e.processControlPacket type

/-! ### Transmitting -/

/-- A packet with an acknowledgement goes out. -/
def clearAcks (e : Endpoint) : Endpoint :=
  { e with pendingAcks := 0, ackAlarm := e.ackAlarm && e.pendingAcks = 0 }

/-- The next packet of the queue gets its header, unless there is a packet in
transmission. -/
def loadNext (e : Endpoint) : Endpoint :=
  match e.current, e.txQueue with
  | none, .data packet :: queue =>
    { e with txQueue := queue, current := some (.data packet e.currentTxAck) }.clearAcks
  | none, .ctrl :: queue =>
    let e' := { e with txQueue := queue, current := some (.ctrl (some (e.ctrl, e.currentTxAck))) }
    match e.ctrl with
    | .ack => e'.clearAcks
    | .control _ => e'
  | _, _ => e

/-- The frame of a packet with a header. -/
def headerFrame : CtrlPacket × Seq → Frame
  | (.ack, ack) => .ack ack
  | (.control type, _) => .control type

/-- The packet in transmission was handed over with `ER_OK`. -/
def deliver (intact : Bool) (e : Endpoint) : Endpoint :=
  match e.current with
  | none => e
  | some (.data packet ack) =>
    { e with
      current := none
      txSent := e.txSent ++ [packet]
      line := if intact then e.line ++ [.data packet.seq ack packet.payload] else e.line }
  | some (.ctrl header) =>
    { e with
      current := none
      line := if intact then e.line ++ (header.map headerFrame).toList else e.line }

/-- The loop of `TransmitToLink`. -/
def transmitLoop : List Delivery → Endpoint → Endpoint
  | [], e => if e.txQueue = [] then e else e.loadNext
  | outcome :: rest, e =>
    if e.txQueue = [] then e
    else
      match outcome with
      | .blocked => e.loadNext
      | .sent => transmitLoop rest (e.loadNext.deliver true)
      | .damaged => transmitLoop rest (e.loadNext.deliver false)

/-- `TransmitToLink`. Beyond the given outcomes nothing can be written. -/
def transmitToLink (outcomes : List Delivery) (e : Endpoint) : Endpoint :=
  if e.online then
    let e := transmitLoop outcomes e
    { e with resendAlarm := e.resendAlarm || !e.txSent.isEmpty }
  else e

/-! ### Calls and alarms -/

/-- A packet of `PushBytes`. -/
def pushPacket (payload : List UInt8) (e : Endpoint) : Endpoint :=
  { e with
    txFree := e.txFree - 1
    txSeqNum := e.txSeqNum + 1
    txQueue := e.txQueue ++ [.data ⟨e.txSeqNum, payload⟩]
    pushed := e.pushed ++ payload }

/-- The packets that are filled while some are free. -/
def fillPackets : Nat → List UInt8 → Endpoint → Endpoint
  | 0, _, e => e
  | free + 1, buf, e =>
    if buf = [] then e
    else fillPackets free (buf.drop e.packetSize) (e.pushPacket (buf.take e.packetSize))

/-- `PushBytes`, up to where it waits for a free packet. It goes on with the rest
of the bytes as another call does. -/
def pushBytes (buf : List UInt8) (e : Endpoint) : Endpoint :=
  if e.linkState = .dead then e
  else
    { fillPackets e.txFree buf e with
      sendAlarm := e.sendAlarm || (e.txFree ≠ 0 ∧ buf ≠ []) }

/-- The loop of `PullBytes`, up to where it waits: the bytes and the rest of the
queue. `FillBuffer` takes the number of bytes as one of 16 bits, and does not
get on with a multiple of 65536. -/
def pullLoop : List (List UInt8) → Nat → Option (List UInt8 × List (List UInt8))
  | [], _ => some ([], [])
  | payload :: queue, reqBytes =>
    if reqBytes = 0 then some ([], payload :: queue)
    else if reqBytes % 65536 < payload.length then
      if reqBytes < 65536 then some (payload.take reqBytes, payload.drop reqBytes :: queue)
      else none
    else do
      let (bytes, queue) ← pullLoop queue (reqBytes - payload.length)
      return (payload ++ bytes, queue)

/-- `PullBytes`, up to where it waits. -/
def pullBytes (reqBytes : Nat) (e : Endpoint) : Endpoint :=
  if e.linkState = .dead then e
  else
    match pullLoop e.rxQueue reqBytes with
    | none => e
    | some (bytes, queue) =>
      { e with
        rxQueue := queue
        rxFree := e.rxFree + (e.rxQueue.length - queue.length)
        pulled := e.pulled ++ bytes }

def scheduleLinkControlPacket (e : Endpoint) : Endpoint :=
  match e.linkState with
  | .dying => { e.enqueueCtrl .disconn with controlAlarm := true }
  | _ => e

/-- The sent packets are queued again, behind the packet for link control. -/
def requeueSent (e : Endpoint) : Endpoint :=
  { e with
    txQueue :=
      match e.txQueue with
      | .ctrl :: queue => .ctrl :: (e.txSent.map .data ++ queue)
      | queue => e.txSent.map .data ++ queue
    txSent := [] }

/-- `RESEND_DATA_ALARM` -/
def resendData (outcomes : List Delivery) (e : Endpoint) : Endpoint :=
  if e.linkState = .active ∧ e.txSent ≠ [] then e.requeueSent.transmitToLink outcomes else e

/-- `ACK_ALARM`, which goes on as `RESEND_CONTROL_ALARM` does. -/
def sendAck (outcomes : List Delivery) (e : Endpoint) : Endpoint :=
  let e :=
    if e.pendingAcks = 0 then e
    else ({ e with pendingAcks := 0 }.makeCtrl .ack).queueCtrl.transmitToLink outcomes
  e.scheduleLinkControlPacket

/-- `Close`, up to where it waits for the response. -/
def close (e : Endpoint) : Endpoint :=
  if e.protocolVersion < 1 then { e with linkState := .dead }
  else if e.linkState = .dead then e
  else { e with linkState := .dying }.scheduleLinkControlPacket

/-- An alarm that is not set does not fire. -/
def act (e : Endpoint) : Action → Endpoint
  | .pushBytes buf => e.pushBytes buf
  | .pullBytes reqBytes => e.pullBytes reqBytes
  | .sendAlarm outcomes =>
    if e.sendAlarm then { e with sendAlarm := false }.transmitToLink outcomes else e
  | .resendAlarm outcomes =>
    if e.resendAlarm then { e with resendAlarm := false }.resendData outcomes else e
  | .ackAlarm outcomes => if e.ackAlarm then { e with ackAlarm := false }.sendAck outcomes else e
  | .controlAlarm =>
    if e.controlAlarm then { e with controlAlarm := false }.scheduleLinkControlPacket else e
  | .goOffline => { e with online := false }
  | .goOnline outcomes => { e with online := true }.transmitToLink outcomes
  | .close => e.close
  | .closeTimeout => if e.linkState = .dying then { e with linkState := .dead } else e

end Endpoint

/-! ### Two endpoints -/

structure System where
  left : Endpoint
  right : Endpoint
  deriving DecidableEq, Repr

def System.swap (s : System) : System := ⟨s.right, s.left⟩

inductive Event where
  | act (action : Action)
  /-- The next frame from the other end arrives. -/
  | arrive
  /-- A frame of this end is lost, or arrives damaged. -/
  | lose (position : Nat)
  deriving DecidableEq, Repr

/-- An event at the left end. -/
def System.stepLeft (s : System) : Event → System
  | .act action => { s with left := s.left.act action }
  | .arrive =>
    match s.right.line with
    | [] => s
    | frame :: rest => ⟨s.left.receive frame, { s.right with line := rest }⟩
  | .lose position =>
    { s with left := { s.left with line := s.left.line.eraseIdx position } }

inductive Side where
  | left
  | right
  deriving DecidableEq, Repr

def System.step (s : System) : Side × Event → System
  | (.left, event) => s.stepLeft event
  | (.right, event) => (s.swap.stepLeft event).swap

end AllJoyn.Slap
