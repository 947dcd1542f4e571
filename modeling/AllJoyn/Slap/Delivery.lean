import AllJoyn.Slap.Link

/-!
The bytes that one end of a link returns are the beginning of those that the
other end was given, as long as the sent packets are not queued again in the
middle of a packet: the packet in transmission then comes before the older ones,
and packets are freed out of order.
-/

namespace AllJoyn.Slap

open Lib Endpoint Current List
open Lib.GoBackN (Window residue follows)

/-- What an endpoint does on its own. -/
structure Moves (e e' : Endpoint) : Prop where
  sender : Relation.ReflTransGen SenderStep e.sender e'.sender
  receiver : Relation.ReflTransGen ReceiverStep e.receiver e'.receiver

namespace Moves

variable {e e' e'' : Endpoint}

theorem of_eq (hsender : e'.sender = e.sender) (hreceiver : e'.receiver = e.receiver) :
    Moves e e' :=
  ⟨by rw [hsender], by rw [hreceiver]⟩

theorem of_senderStep (hstep : SenderStep e.sender e'.sender)
    (hreceiver : e'.receiver = e.receiver) : Moves e e' :=
  ⟨.single hstep, by rw [hreceiver]⟩

theorem of_receiverStep (hsender : e'.sender = e.sender)
    (hstep : ReceiverStep e.receiver e'.receiver) : Moves e e' :=
  ⟨by rw [hsender], .single hstep⟩

theorem refl (e : Endpoint) : Moves e e := .of_eq rfl rfl

theorem trans (h : Moves e e') (h' : Moves e' e'') : Moves e e'' :=
  ⟨h.sender.trans h'.sender, h.receiver.trans h'.receiver⟩

theorem after (h : Moves e' e'') (hsender : e'.sender = e.sender)
    (hreceiver : e'.receiver = e.receiver) : Moves e e'' :=
  trans (.of_eq hsender hreceiver) h

theorem ite {c : Prop} [Decidable c] (hthen : c → Moves e e') (helse : ¬c → Moves e e'') :
    Moves e (if c then e' else e'') := by
  split
  · exact hthen (by assumption)
  · exact helse (by assumption)

theorem of_lost (hsender : e'.sender = e.sender)
    (hreceiver : e'.receiver = { e.receiver with acks := e.line.filterMap Frame.ack? ++ [] }) :
    Moves e e' := by
  refine of_receiverStep hsender ?_
  rw [hreceiver]
  exact .lose _ _ ((List.Sublist.refl _).append (nil_sublist _))

theorem linked {peer : Endpoint} (hmoves : Moves e e') (hout : Linked e.sender peer.receiver)
    (hin : Linked peer.sender e.receiver) :
    Linked e'.sender peer.receiver ∧ Linked peer.sender e'.receiver := by
  obtain ⟨hsender, hreceiver⟩ := hmoves
  generalize e'.sender = s at hsender
  generalize e'.receiver = r at hreceiver
  constructor
  · induction hsender with
    | refl => exact hout
    | tail _ hstep ih => exact ih.senderStep hstep
  · induction hreceiver with
    | refl => exact hin
    | tail _ hstep ih => exact ih.receiverStep hstep

end Moves

namespace Endpoint

/-! ### Transmitting -/

section Moving

variable (e)

theorem clearAcks_moves : Moves e e.clearAcks := .of_eq rfl rfl

/-- A packet stays outstanding when it gets its header, which acknowledges. -/
theorem loadNext_moves : Moves e e.loadNext := by
  unfold loadNext
  split
  · rename_i packet queue hcurrent hqueue
    apply Moves.trans _ (clearAcks_moves _)
    apply Moves.of_receiverStep
    · simp [sender, outstanding, hcurrent, hqueue, Packet.data?, packets]
    · convert ReceiverStep.acknowledge e.receiver using 1
      simp [receiver, hcurrent, acks]
  · rename_i queue hcurrent hqueue
    cases hctrl : e.ctrl with
    | ack =>
      apply Moves.trans _ (clearAcks_moves _)
      apply Moves.of_receiverStep
      · simp [sender, outstanding, hcurrent, hqueue, filterMap_cons, Packet.data?,
          packets]
      · convert ReceiverStep.acknowledge e.receiver using 1
        simp [receiver, hcurrent, acks]
    | control type =>
      apply Moves.of_eq
      · simp [sender, outstanding, hcurrent, hqueue, filterMap_cons, Packet.data?,
          packets]
      · simp [receiver, hcurrent, acks]
  · exact Moves.refl e

/-- A packet stays outstanding when it is written, and its acknowledgement in
flight. -/
theorem deliver_moves (intact : Bool) : Moves e (e.deliver intact) := by
  unfold deliver
  split
  · exact Moves.refl e
  · rename_i packet ack hcurrent
    have hsame : e.txSent ++ [packet] ++ e.txQueue.filterMap Packet.data? = e.outstanding := by
      simp [outstanding, hcurrent, packets]
    cases intact with
    | true =>
      apply Moves.of_senderStep
      · convert SenderStep.emit e.sender packet (by simp [sender, ← hsame]) using 1
        simp [sender, outstanding, hcurrent, packets, Frame.packet?]
      · simp [receiver, hcurrent, acks, Frame.ack?]
    | false =>
      exact .of_lost (by simp [sender, outstanding, hcurrent, packets]) rfl
  · rename_i header hcurrent
    cases intact with
    | true =>
      apply Moves.of_eq
      · cases header with
        | none => simp [sender, outstanding, hcurrent, packets]
        | some header =>
          obtain ⟨content, ack⟩ := header
          cases content <;>
            simp [sender, outstanding, hcurrent, packets, headerFrame, Frame.packet?]
      · cases header with
        | none => simp [receiver, hcurrent, acks]
        | some header =>
          obtain ⟨content, ack⟩ := header
          cases content <;> simp [receiver, hcurrent, acks, headerFrame, Frame.ack?]
    | false =>
      exact .of_lost (by simp [sender, outstanding, hcurrent, packets]) rfl

variable (outcomes : List Delivery)

theorem transmitLoop_moves : Moves e (transmitLoop outcomes e) := by
  induction outcomes generalizing e with
  | nil =>
    rw [transmitLoop]
    split
    · exact Moves.refl e
    · exact e.loadNext_moves
  | cons outcome rest ih =>
    by_cases hempty : e.txQueue = []
    · rw [transmitLoop.eq_def]
      simp only [if_pos hempty]
      exact Moves.refl e
    · rw [transmitLoop.eq_def]
      simp only [if_neg hempty]
      cases outcome with
      | blocked => exact e.loadNext_moves
      | sent => exact (e.loadNext_moves.trans (deliver_moves _ true)).trans (ih _)
      | damaged => exact (e.loadNext_moves.trans (deliver_moves _ false)).trans (ih _)

theorem transmitToLink_moves : Moves e (e.transmitToLink outcomes) :=
  .ite (fun _ => (transmitLoop_moves e outcomes).trans (.of_eq rfl rfl)) fun _ => .refl e

/-! ### Link control -/

theorem makeCtrl_moves (content : CtrlPacket) : Moves e (e.makeCtrl content) := by
  unfold makeCtrl
  split
  · rename_i header hcurrent
    exact .of_lost (by simp [sender, outstanding, hcurrent, packets]) rfl
  · exact .of_eq rfl rfl

theorem queueCtrl_moves : Moves e e.queueCtrl := by
  refine .ite (fun _ => .refl e) fun _ => .of_eq ?_ rfl
  simp [sender, outstanding, filterMap_cons, Packet.data?]

theorem enqueueCtrl_moves (type : ControlType) :
    Moves e (e.enqueueCtrl type) :=
  .ite (fun _ => ((e.makeCtrl_moves _).trans (queueCtrl_moves _)).trans (.of_eq rfl rfl))
    fun _ => .refl e

theorem processControlPacket_moves (type : ControlType) :
    Moves e (e.processControlPacket type) := by
  unfold processControlPacket
  split
  · exact e.enqueueCtrl_moves .negoResp
  · exact .of_eq rfl rfl
  · exact (e.enqueueCtrl_moves .disconnResp).trans (.of_eq rfl rfl)
  · exact .of_eq rfl rfl
  · exact e.enqueueCtrl_moves .disconnResp
  · exact Moves.refl e

theorem scheduleLinkControlPacket_moves :
    Moves e e.scheduleLinkControlPacket := by
  unfold scheduleLinkControlPacket
  split
  · exact (e.enqueueCtrl_moves .disconn).trans (.of_eq rfl rfl)
  · exact Moves.refl e

/-! ### Calls -/

theorem pushPacket_moves (payload : List UInt8) (hfree : e.txFree ≠ 0) :
    Moves e (e.pushPacket payload) := by
  apply Moves.of_senderStep
  · convert SenderStep.push e.sender payload hfree using 1
    simp [sender, pushPacket, outstanding, Packet.data?]
  · rfl

theorem fillPackets_moves (free : Nat) (buf : List UInt8) (hfree : free ≤ e.txFree) :
    Moves e (fillPackets free buf e) := by
  induction free generalizing buf e with
  | zero => exact Moves.refl e
  | succ free ih =>
    rw [fillPackets]
    split
    · exact Moves.refl e
    · have hrest : free ≤ (e.pushPacket (buf.take e.packetSize)).txFree := by
        simp only [pushPacket]
        omega
      exact (e.pushPacket_moves _ (by omega)).trans (ih _ _ hrest)

theorem pushBytes_moves (buf : List UInt8) : Moves e (e.pushBytes buf) :=
  .ite (fun _ => .refl e) fun _ => (fillPackets_moves e _ buf le_rfl).trans (.of_eq rfl rfl)

theorem pullLoop_eq_some {queue rest : List (List UInt8)} {reqBytes : Nat} {bytes : List UInt8}
    (hpull : pullLoop queue reqBytes = some (bytes, rest)) :
    bytes ++ rest.flatten = queue.flatten := by
  induction queue generalizing reqBytes bytes with
  | nil =>
    obtain ⟨rfl, rfl⟩ := hpull
    rfl
  | cons payload queue ih =>
    rw [pullLoop] at hpull
    split at hpull
    · rw [Option.some.injEq] at hpull
      obtain ⟨rfl, rfl⟩ := hpull
      rfl
    · split at hpull
      · split at hpull
        · rw [Option.some.injEq] at hpull
          obtain ⟨rfl, rfl⟩ := hpull
          rw [flatten_cons, flatten_cons, ← append_assoc, take_append_drop]
        · cases hpull
      · simp only [Option.bind_eq_bind] at hpull
        obtain ⟨⟨more, behind⟩, hmore, hpull⟩ := Option.bind_eq_some_iff.1 hpull
        obtain ⟨rfl, rfl⟩ := hpull
        rw [append_assoc, ih hmore, flatten_cons]

theorem pullBytes_moves (reqBytes : Nat) : Moves e (e.pullBytes reqBytes) := by
  unfold pullBytes
  split
  · exact Moves.refl e
  · split
    · exact Moves.refl e
    · rename_i bytes rest hpull
      refine Moves.of_eq rfl ?_
      simp [receiver, pullLoop_eq_some hpull]

theorem close_moves : Moves e e.close :=
  .ite (fun _ => .of_eq rfl rfl) fun _ => .ite (fun _ => .refl e) fun _ =>
    .after (scheduleLinkControlPacket_moves _) rfl rfl

/-! ### Alarms -/

theorem sendAck_moves : Moves e (e.sendAck outcomes) := by
  refine .trans (.ite (fun _ => .refl e) fun _ => ?_) (scheduleLinkControlPacket_moves _)
  refine Moves.trans ?_ (transmitToLink_moves _ outcomes)
  refine Moves.trans ?_ (queueCtrl_moves _)
  exact .after (makeCtrl_moves _ _) rfl rfl

/-- A data packet is in transmission. -/
def midPacket (e : Endpoint) : Bool :=
  match e.current with
  | some (.data _ _) => true
  | _ => false

/-- Outside of a packet the sent packets are the first ones of the queue again. -/
theorem requeueSent_moves (hbetween : e.midPacket = false) :
    Moves e e.requeueSent := by
  have hcurrent : e.current.elim [] packets = [] := by
    cases hcurrent : e.current with
    | none => rfl
    | some current =>
      cases current with
      | ctrl header => rfl
      | data packet ack => simp [midPacket, hcurrent] at hbetween
  have hmap : ∀ packets : List DataPacket,
      (packets.map Packet.data).filterMap Packet.data? = packets := by
    intro packets
    rw [filterMap_map]
    exact filterMap_some
  apply Moves.of_eq
  · unfold requeueSent
    split
    · rename_i queue hqueue
      simp [sender, outstanding, hcurrent, hqueue, filterMap_cons, Packet.data?, hmap]
    · simp [sender, outstanding, hcurrent, hmap]
  · rfl

/-- The sent packets are not queued again in the middle of a packet. -/
def Orderly (e : Endpoint) : Action → Prop
  | .resendAlarm _ =>
    e.resendAlarm = true → e.linkState = .active → e.txSent ≠ [] → e.midPacket = false
  | _ => True

instance (e : Endpoint) : (action : Action) → Decidable (e.Orderly action)
  | .resendAlarm _ => inferInstanceAs (Decidable
      (e.resendAlarm = true → e.linkState = .active → e.txSent ≠ [] → e.midPacket = false))
  | .pushBytes _ | .pullBytes _ | .sendAlarm _ | .ackAlarm _ | .controlAlarm | .goOffline
  | .goOnline _ | .close | .closeTimeout => .isTrue trivial

theorem resendData_moves (horderly : e.linkState = .active → e.txSent ≠ [] → e.midPacket = false) :
    Moves e (e.resendData outcomes) :=
  .ite (fun hresend => (e.requeueSent_moves (horderly hresend.1 hresend.2)).trans
    (transmitToLink_moves _ _)) fun _ => .refl e

theorem act_moves (action : Action) (horderly : e.Orderly action) :
    Moves e (e.act action) := by
  cases action with
  | pushBytes buf => exact e.pushBytes_moves buf
  | pullBytes reqBytes => exact e.pullBytes_moves reqBytes
  | sendAlarm outcomes =>
    exact .ite (fun _ => .after (transmitToLink_moves _ outcomes) rfl rfl) fun _ => .refl e
  | resendAlarm outcomes =>
    exact .ite (fun hset => .after (resendData_moves _ outcomes (horderly hset)) rfl rfl)
      fun _ => .refl e
  | ackAlarm outcomes =>
    exact .ite (fun _ => .after (sendAck_moves _ outcomes) rfl rfl) fun _ => .refl e
  | controlAlarm =>
    exact .ite (fun _ => .after (scheduleLinkControlPacket_moves _) rfl rfl) fun _ => .refl e
  | goOffline => exact .of_eq rfl rfl
  | goOnline outcomes => exact .after (transmitToLink_moves _ outcomes) rfl rfl
  | close => exact e.close_moves
  | closeTimeout => exact .ite (fun _ => .of_eq rfl rfl) fun _ => .refl e

end Moving

/-! ### Arrivals -/

theorem seqGt_eq_follows (e : Endpoint) (s1 s2 : Seq) : e.seqGt s1 s2 = follows e.windowSize s1 s2 := by
  have hsum : 7 + s1.val - s2.val = s1.val + (8 - 1 - s2.val) := by omega
  rw [seqGt, follows, hsum]

theorem receiveData_sender (seq : Seq) (payload : List UInt8) (e : Endpoint) :
    (e.receiveData seq payload).sender = e.sender := by
  unfold receiveData
  split
  · split <;> rfl
  · split <;> rfl

theorem processAckNum_linked {e peer : Endpoint} {ack : Seq} {acks : List Seq}
    (h : Linked e.sender peer.receiver) (hacks : peer.receiver.acks = ack :: acks) :
    Linked (e.processAckNum ack).sender { peer.receiver with acks := acks } := by
  have hrelease := h.release hacks (rfl : e.sender.outstanding = e.txSent ++ _)
  convert hrelease using 1
  simp only [sender, processAckNum, outstanding, seqGt_eq_follows]

theorem receiveData_linked {e peer : Endpoint} {packet : DataPacket} {inFlight : List DataPacket}
    (h : Linked peer.sender e.receiver) (hflight : peer.sender.inFlight = packet :: inFlight) :
    Linked { peer.sender with inFlight := inFlight }
      (e.receiveData packet.seq packet.payload).receiver := by
  have hwindow : e.windowSize = peer.sender.windowSize := h.windowSize
  have hignored : Linked { peer.sender with inFlight := inFlight } e.receiver := by
    apply h.senderStep
    exact .lose _ _ (by rw [hflight]; exact sublist_cons_self _ _)
  obtain ⟨htake, hrepeated⟩ := h.arrive hflight
  unfold receiveData
  split
  · rename_i hother
    split
    · exact hignored
    · -- a packet that was taken before does not change the acknowledgement
      rename_i hbehind
      rw [Bool.not_eq_true, seqGt_eq_follows, hwindow] at hbehind
      have hacked : follows e.windowSize e.currentTxAck packet.seq = true := by
        rw [hwindow]
        exact hrepeated hother hbehind
      convert hignored using 1
      simp only [receiver, processDataSeqNum, seqGt_eq_follows]
      rw [if_pos hacked]
  · rename_i hexpected
    split
    · exact hignored
    · rw [not_not] at hexpected
      convert htake hexpected using 1
      simp [receiver, processDataSeqNum, seqGt_eq_follows, hwindow]

end Endpoint

/-! ### Runs -/

/-- Both directions are in order. -/
def System.InOrder (s : System) : Prop :=
  Linked s.left.sender s.right.receiver ∧ Linked s.right.sender s.left.receiver

variable {s : System}

theorem System.InOrder.swap (h : s.InOrder) : s.swap.InOrder := ⟨h.2, h.1⟩

theorem System.InOrder.arrive (h : s.InOrder) {frame : Frame} {rest : List Frame}
    (hline : s.right.line = frame :: rest) :
    System.InOrder ⟨s.left.receive frame, { s.right with line := rest }⟩ := by
  obtain ⟨hout, hin⟩ := h
  cases frame with
  | data seq ack payload =>
    have hacks : s.right.receiver.acks =
        ack :: { s.right with line := rest }.receiver.acks := by
      simp [receiver, hline, Frame.ack?]
    have hflight : s.right.sender.inFlight =
        ⟨seq, payload⟩ :: { s.right with line := rest }.sender.inFlight := by
      simp [sender, hline, Frame.packet?]
    constructor
    · have hreleased := processAckNum_linked hout hacks
      rw [← receiveData_sender seq payload] at hreleased
      exact hreleased
    · have hsame : (s.left.processAckNum ack).receiver = s.left.receiver := rfl
      rw [← hsame] at hin
      exact receiveData_linked hin hflight
  | ack ack =>
    have hacks : s.right.receiver.acks =
        ack :: { s.right with line := rest }.receiver.acks := by
      simp [receiver, hline, Frame.ack?]
    have hsame : { s.right with line := rest }.sender = s.right.sender := by
      simp [sender, outstanding, hline, filterMap_cons, Frame.packet?]
    refine ⟨processAckNum_linked hout hacks, ?_⟩
    simp only [hsame]
    exact hin
  | control type =>
    have hsender : { s.right with line := rest }.sender = s.right.sender := by
      simp [sender, outstanding, hline, filterMap_cons, Frame.packet?]
    have hreceiver : { s.right with line := rest }.receiver = s.right.receiver := by
      simp [receiver, hline, filterMap_cons, Frame.ack?]
    have hmoved := (s.left.processControlPacket_moves type).linked hout hin
    simp only [System.InOrder, hsender, hreceiver]
    exact hmoved

theorem System.InOrder.lose (h : s.InOrder) (position : Nat) :
    System.InOrder
      { s with left := { s.left with line := s.left.line.eraseIdx position } } := by
  have hsub := eraseIdx_sublist s.left.line position
  constructor
  · exact h.1.senderStep (.lose _ _ (hsub.filterMap _))
  · exact h.2.receiverStep (.lose _ _ ((hsub.filterMap _).append (List.Sublist.refl _)))

/-- The condition on an event, in the state before it. -/
def System.Orderly (s : System) : Side × Event → Prop
  | (.left, .act action) => s.left.Orderly action
  | (.right, .act action) => s.right.Orderly action
  | _ => True

instance (s : System) : (event : Side × Event) → Decidable (s.Orderly event)
  | (.left, .act action) => inferInstanceAs (Decidable (s.left.Orderly action))
  | (.right, .act action) => inferInstanceAs (Decidable (s.right.Orderly action))
  | (.left, .arrive) | (.left, .lose _) | (.right, .arrive) | (.right, .lose _) => .isTrue trivial

theorem System.InOrder.stepLeft (h : s.InOrder) (event : Event)
    (horderly : s.Orderly (.left, event)) : (s.stepLeft event).InOrder := by
  cases event with
  | act action => exact (s.left.act_moves action horderly).linked h.1 h.2
  | arrive =>
    simp only [System.stepLeft]
    split
    · exact h
    · rename_i hline
      exact h.arrive hline
  | lose position => exact h.lose position

theorem System.InOrder.step (h : s.InOrder) (event : Side × Event)
    (horderly : s.Orderly event) : (s.step event).InOrder := by
  obtain ⟨side, event⟩ := event
  cases side with
  | left => exact h.stepLeft event horderly
  | right =>
    have hswapped : s.swap.Orderly (.left, event) := by
      cases event with
      | act action => exact horderly
      | arrive => trivial
      | lose position => trivial
    exact (h.swap.stepLeft event hswapped).swap

/-- An endpoint whose link has become active: no data has been sent or received,
and on the line and in the queue there are control packets at most. -/
structure Endpoint.Started (size : Nat) (e : Endpoint) : Prop where
  windowSize : e.windowSize = size
  linkState : e.linkState = .active
  txQueue : ∀ packet ∈ e.txQueue, packet = .ctrl
  txSent : e.txSent = []
  txFree : e.txFree = size
  txSeqNum : e.txSeqNum = 0
  currentPackets : e.current.elim [] Current.packets = []
  currentAcks : e.current.elim [] Current.acks = []
  currentTxAck : e.currentTxAck = 0
  expectedSeq : e.expectedSeq = 0
  rxQueue : e.rxQueue = []
  line : ∀ frame ∈ e.line, ∃ type, frame = .control type
  pushed : e.pushed = []
  pulled : e.pulled = []

theorem Endpoint.Started.linked {size : Nat} (hsmall : size ≤ 4) {e e' : Endpoint}
    (h : e.Started size) (h' : e'.Started size) : Linked e.sender e'.receiver := by
  have hqueue : e.txQueue.filterMap Packet.data? = [] := by
    rw [filterMap_eq_nil_iff]
    intro packet hpacket
    rw [h.txQueue packet hpacket]
    rfl
  have hflight : e.line.filterMap Frame.packet? = [] := by
    rw [filterMap_eq_nil_iff]
    intro frame hframe
    obtain ⟨type, rfl⟩ := h.line frame hframe
    rfl
  have hacks : e'.line.filterMap Frame.ack? = [] := by
    rw [filterMap_eq_nil_iff]
    intro frame hframe
    obtain ⟨type, rfl⟩ := h'.line frame hframe
    rfl
  have hsize : e.windowSize = size := h.windowSize
  refine ⟨[], Window.start, ?_⟩
  constructor
  · exact Window.Valid.start
  · exact hsize.trans_le hsmall
  · exact h'.windowSize.trans hsize.symm
  · rfl
  · exact h.pushed
  · simp [sender, outstanding, h.txSent, h.currentPackets, hqueue, Window.start]
  · simp [sender, h.txFree, hsize, Window.start]
  · exact h.txSeqNum
  · exact hflight
  · exact h'.expectedSeq
  · exact h'.currentTxAck
  · simp [receiver, h'.pulled, h'.rxQueue]
  · simp [receiver, hacks, h'.currentAcks, Window.start]

/-- In every run on an active link in which the sent packets are never queued
again in the middle of a packet, what either end returns is the beginning of what
the other was given. -/
theorem orderly_run_delivers (windowSize : Nat) (hwindow : windowSize ∈ [1, 2, 4]) (s : System)
    (hleft : s.left.Started windowSize) (hright : s.right.Started windowSize)
    (events : List (Side × Event))
    (horderly : Lib.Run.Meets System.step System.Orderly s events) :
    (events.foldl System.step s).right.pulled <+: (events.foldl System.step s).left.pushed ∧
      (events.foldl System.step s).left.pulled <+: (events.foldl System.step s).right.pushed := by
  have hsmall : windowSize ≤ 4 := by
    simp only [mem_cons, not_mem_nil, or_false] at hwindow
    omega
  have hstart : s.InOrder := ⟨hleft.linked hsmall hright, hright.linked hsmall hleft⟩
  have hend := horderly.invariant System.InOrder (fun s event h hok => h.step event hok) hstart
  exact ⟨(prefix_append _ _).trans hend.1.taken_first,
    (prefix_append _ _).trans hend.2.taken_first⟩

/-- An endpoint whose link has become active with nothing in flight. -/
def started (windowSize packetSize : Nat) : Endpoint :=
  { windowSize := windowSize
    packetSize := packetSize
    protocolVersion := 1
    online := true
    linkState := .active
    txQueue := []
    txSent := []
    txFree := windowSize
    txSeqNum := 0
    current := none
    ctrl := .control .negoResp
    currentTxAck := 0
    pendingAcks := 0
    expectedSeq := 0
    rxQueue := []
    rxFree := windowSize
    sendAlarm := false
    resendAlarm := false
    ackAlarm := false
    controlAlarm := false
    line := []
    pushed := []
    pulled := [] }

theorem started_started (windowSize packetSize : Nat) :
    (started windowSize packetSize).Started windowSize := by
  constructor <;> simp [started]

/-- Of three packets the second is lost, and the last two are sent again. -/
def lossyRun : List (Side × Event) :=
  [(.left, .act (.pushBytes [1, 2, 3, 4, 5])),
    (.left, .act (.sendAlarm [.sent, .damaged, .sent])),
    (.right, .arrive), (.right, .arrive), (.right, .act (.ackAlarm [.sent])), (.left, .arrive),
    (.left, .act (.resendAlarm [.blocked])), (.left, .act (.pushBytes [6])),
    (.left, .act (.sendAlarm [.sent, .sent, .sent])), (.left, .lose 2),
    (.right, .arrive), (.right, .arrive), (.right, .act (.pullBytes 4))]

theorem lossyRun_delivers :
    Lib.Run.Meets System.step System.Orderly ⟨started 4 2, started 4 2⟩ lossyRun ∧
      (lossyRun.foldl System.step ⟨started 4 2, started 4 2⟩).right.pulled = [1, 2, 3, 4] ∧
      (lossyRun.foldl System.step ⟨started 4 2, started 4 2⟩).right.pulled <+:
        (lossyRun.foldl System.step ⟨started 4 2, started 4 2⟩).left.pushed := by
  have horderly : Lib.Run.Meets System.step System.Orderly ⟨started 4 2, started 4 2⟩ lossyRun := by
    decide +kernel
  refine ⟨horderly, by decide +kernel, ?_⟩
  exact (orderly_run_delivers 4 (by decide) _ (started_started 4 2) (started_started 4 2) lossyRun
    horderly).1

/-- The packet of a byte is sent before the oldest one, which is in transmission
again when the byte is acknowledged. -/
def overtakingRound (bytes : List UInt8) : List (Side × Event) :=
  [(.left, .act (.pushBytes bytes)), (.left, .act (.sendAlarm [.sent, .blocked])),
    (.left, .act (.resendAlarm [.sent, .blocked])), (.right, .arrive), (.right, .arrive),
    (.right, .act (.pullBytes bytes.length)), (.right, .act (.ackAlarm [.sent])), (.left, .arrive)]

/-- The packet of the first byte stays outstanding until its number is expected
again. -/
def overtakenRun : List (Side × Event) :=
  [[0, 1], [2], [3], [4], [5], [6], [7]].flatMap overtakingRound ++
    [(.left, .act (.pushBytes [8])), (.left, .act (.sendAlarm [.sent, .blocked])),
      (.right, .arrive), (.right, .act (.pullBytes 1))]

theorem overtakenRun_misdelivers :
    (started 2 1).Started 2 ∧
      (overtakenRun.foldl System.step ⟨started 2 1, started 2 1⟩).right.pulled =
        [0, 1, 2, 3, 4, 5, 6, 7, 0] ∧
      (overtakenRun.foldl System.step ⟨started 2 1, started 2 1⟩).left.pushed =
        [0, 1, 2, 3, 4, 5, 6, 7, 8] ∧
      ¬ (overtakenRun.foldl System.step ⟨started 2 1, started 2 1⟩).right.pulled <+:
        (overtakenRun.foldl System.step ⟨started 2 1, started 2 1⟩).left.pushed := by
  have hpulled : (overtakenRun.foldl System.step ⟨started 2 1, started 2 1⟩).right.pulled =
      [0, 1, 2, 3, 4, 5, 6, 7, 0] := by
    decide +kernel
  have hpushed : (overtakenRun.foldl System.step ⟨started 2 1, started 2 1⟩).left.pushed =
      [0, 1, 2, 3, 4, 5, 6, 7, 8] := by
    decide +kernel
  refine ⟨started_started 2 1, hpulled, hpushed, ?_⟩
  rw [hpulled, hpushed]
  decide

end AllJoyn.Slap
