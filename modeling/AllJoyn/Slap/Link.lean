import AllJoyn.Slap.Stream

/-!
One direction of a link: what the sending end and the receiving end know of each
other, as views of the two endpoints, and how it carries over from one state to
the next. The numbering of the packets is a window of `GoBackN`.
-/

namespace AllJoyn.Slap

open Lib List
open Lib.GoBackN (Window residue follows)

def Frame.packet? : Frame → Option DataPacket
  | .data seq _ payload => some ⟨seq, payload⟩
  | _ => none

def Frame.ack? : Frame → Option Seq
  | .data _ number _ => some number
  | .ack number => some number
  | .control _ => none

def Packet.data? : Packet → Option DataPacket
  | .data packet => some packet
  | .ctrl => none

/-- The data packet in transmission. -/
def Current.packets : Current → List DataPacket
  | .data packet _ => [packet]
  | .ctrl _ => []

/-- The acknowledgement in transmission. -/
def Current.acks : Current → List Seq
  | .data _ ack => [ack]
  | .ctrl (some (.ack, ack)) => [ack]
  | .ctrl _ => []

/-- An endpoint as the sender of data. -/
structure Sender where
  windowSize : Nat
  pushed : List UInt8
  /-- The packets that are not free, in the order in which they are sent. -/
  outstanding : List DataPacket
  free : Nat
  seqNum : Seq
  inFlight : List DataPacket

/-- An endpoint as the receiver of data. -/
structure Receiver where
  windowSize : Nat
  expected : Seq
  ack : Seq
  /-- The bytes that were returned or can be. -/
  taken : List UInt8
  /-- The acknowledgements in flight, or in transmission. -/
  acks : List Seq

namespace Endpoint

def outstanding (e : Endpoint) : List DataPacket :=
  e.txSent ++ (e.current.elim [] Current.packets ++ e.txQueue.filterMap Packet.data?)

def sender (e : Endpoint) : Sender :=
  { windowSize := e.windowSize
    pushed := e.pushed
    outstanding := e.outstanding
    free := e.txFree
    seqNum := e.txSeqNum
    inFlight := e.line.filterMap Frame.packet? }

def receiver (e : Endpoint) : Receiver :=
  { windowSize := e.windowSize
    expected := e.expectedSeq
    ack := e.currentTxAck
    taken := e.pulled ++ e.rxQueue.flatten
    acks := e.line.filterMap Frame.ack? ++ e.current.elim [] Current.acks }

end Endpoint

/-- The packet of a number. -/
def packetAt (history : List (List UInt8)) (i : Nat) : DataPacket :=
  ⟨residue i, history.getD i []⟩

/-- The two ends agree on the packets of a history, numbered from 0 on. -/
structure Link (history : List (List UInt8)) (w : Window) (s : Sender) (r : Receiver) : Prop where
  valid : w.Valid s.windowSize
  small : s.windowSize ≤ 4
  windowSize : r.windowSize = s.windowSize
  length : history.length = w.next
  pushed : s.pushed = history.flatten
  outstanding : s.outstanding = (List.range' w.base (w.next - w.base)).map (packetAt history)
  free : w.next + s.free = w.base + s.windowSize
  seqNum : s.seqNum = residue w.next
  inFlight : s.inFlight = w.data.map (packetAt history)
  expected : r.expected = residue w.expected
  ack : r.ack = residue w.expected
  taken : r.taken = (history.take w.expected).flatten
  acks : r.acks = w.acks.map residue

/-- The direction from a sender to a receiver is in order. -/
def Linked (s : Sender) (r : Receiver) : Prop := ∃ history w, Link history w s r

variable {s : Sender} {r : Receiver}

theorem Linked.taken_first (h : Linked s r) : r.taken <+: s.pushed := by
  obtain ⟨history, w, h⟩ := h
  rw [h.taken, h.pushed]
  exact ⟨(history.drop w.expected).flatten, by rw [← flatten_append, take_append_drop]⟩

theorem Linked.windowSize (h : Linked s r) : r.windowSize = s.windowSize := by
  obtain ⟨history, w, h⟩ := h
  exact h.windowSize

/-! ### What the sender does on its own -/

variable {history : List (List UInt8)}

theorem packetAt_append {payload : List UInt8} {i : Nat} (hi : i < history.length) :
    packetAt (history ++ [payload]) i = packetAt history i := by
  simp [packetAt, List.getElem?_append_left hi]

inductive SenderStep : Sender → Sender → Prop
  /-- A free packet is filled. -/
  | push (s : Sender) (payload : List UInt8) (hfree : s.free ≠ 0) :
      SenderStep s { s with
        pushed := s.pushed ++ payload
        outstanding := s.outstanding ++ [⟨s.seqNum, payload⟩]
        free := s.free - 1
        seqNum := s.seqNum + 1 }
  /-- A packet that is not free is written to the line. -/
  | emit (s : Sender) (packet : DataPacket) (hpacket : packet ∈ s.outstanding) :
      SenderStep s { s with inFlight := s.inFlight ++ [packet] }
  | lose (s : Sender) (inFlight : List DataPacket) (hsub : inFlight.Sublist s.inFlight) :
      SenderStep s { s with inFlight := inFlight }

theorem residue_succ (i : Nat) : (residue i : Seq) + 1 = residue (i + 1) := by
  apply Fin.ext
  simp [residue, Fin.val_add]

theorem Link.push {w : Window} (h : Link history w s r) (payload : List UInt8) (hfree : s.free ≠ 0) :
    Link (history ++ [payload]) { w with next := w.next + 1 }
      { s with
        pushed := s.pushed ++ payload
        outstanding := s.outstanding ++ [⟨s.seqNum, payload⟩]
        free := s.free - 1
        seqNum := s.seqNum + 1 } r := by
  have hcount := h.free
  have hbase := h.valid.base_le
  have hexpected := h.valid.expected_le
  have hlength := h.length
  refine
    { h with
      valid := ?_, length := ?_, pushed := ?_, outstanding := ?_, free := ?_, seqNum := ?_
      inFlight := ?_, taken := ?_ }
  · exact h.valid.push (by omega)
  · simp [hlength]
  · simp [h.pushed]
  · have hnew : packetAt (history ++ [payload]) w.next = ⟨s.seqNum, payload⟩ := by
      simp [packetAt, h.seqNum, ← hlength]
    have hold : (List.range' w.base (w.next - w.base)).map (packetAt (history ++ [payload])) =
        (List.range' w.base (w.next - w.base)).map (packetAt history) := by
      apply map_congr_left
      intro i hi
      rw [mem_range'_1] at hi
      exact packetAt_append (by omega)
    have hrange : w.next + 1 - w.base = (w.next - w.base) + 1 := by omega
    have hlast : w.base + 1 * (w.next - w.base) = w.next := by omega
    simp only [hrange, List.range'_concat, map_append, map_cons, map_nil, hlast, hold,
      hnew, h.outstanding]
  · dsimp only
    omega
  · rw [← residue_succ, ← h.seqNum]
  · rw [h.inFlight]
    apply map_congr_left
    intro i hi
    have hlt := h.valid.data_lt i hi
    exact (packetAt_append (by omega)).symm
  · rw [h.taken, take_append_of_le_length (by rw [hlength]; exact hexpected)]

theorem Linked.senderStep {s' : Sender} (h : Linked s r) (hstep : SenderStep s s') :
    Linked s' r := by
  obtain ⟨history, w, h⟩ := h
  cases hstep with
  | push payload hfree => exact ⟨_, _, h.push payload hfree⟩
  | emit packet hpacket =>
    rw [h.outstanding, mem_map] at hpacket
    obtain ⟨i, hi, rfl⟩ := hpacket
    rw [mem_range'_1] at hi
    refine ⟨history, { w with data := w.data ++ [i] },
      { h with valid := h.valid.emit hi.1 (by omega), inFlight := ?_ }⟩
    simp [h.inFlight]
  | lose inFlight hsub =>
    rw [h.inFlight, sublist_map_iff] at hsub
    obtain ⟨data, hdata, rfl⟩ := hsub
    exact ⟨history, { w with data := data }, { h with valid := h.valid.loseData hdata, inFlight := rfl }⟩

/-! ### What the receiver does on its own -/

inductive ReceiverStep : Receiver → Receiver → Prop
  /-- The header of a packet is made with the acknowledgement. -/
  | acknowledge (r : Receiver) : ReceiverStep r { r with acks := r.acks ++ [r.ack] }
  | lose (r : Receiver) (acks : List Seq) (hsub : acks.Sublist r.acks) :
      ReceiverStep r { r with acks := acks }

theorem Linked.receiverStep {r' : Receiver} (h : Linked s r) (hstep : ReceiverStep r r') :
    Linked s r' := by
  obtain ⟨history, w, h⟩ := h
  cases hstep with
  | acknowledge =>
    refine ⟨history, { w with acks := w.acks ++ [w.expected] },
      { h with valid := h.valid.acknowledge, acks := ?_ }⟩
    simp [h.acks, h.ack]
  | lose acks hsub =>
    rw [h.acks, sublist_map_iff] at hsub
    obtain ⟨numbers, hnumbers, rfl⟩ := hsub
    exact ⟨history, { w with acks := numbers }, { h with valid := h.valid.loseAcks hnumbers, acks := rfl }⟩

/-! ### What arrives -/

theorem dropWhile_range' (f : Nat → Bool) (a : Nat) (base k : Nat) (hbase : base ≤ a)
    (hf : ∀ i, base ≤ i → i < base + k → (f i = true ↔ i < a)) :
    (List.range' base k).dropWhile f =
      List.range' (min a (base + k)) (base + k - min a (base + k)) := by
  induction k generalizing base with
  | zero => simp [Nat.min_eq_right hbase]
  | succ k ih =>
    rw [List.range'_succ, dropWhile_cons]
    by_cases hlt : base < a
    · rw [if_pos ((hf base le_rfl (by omega)).2 hlt),
        ih (base + 1) hlt (fun i hlow hhigh => hf i (by omega) (by omega))]
      have hend : base + 1 + k = base + (k + 1) := by omega
      rw [hend]
    · have hnot : ¬ f base = true := fun hfirst => hlt ((hf base le_rfl (by omega)).1 hfirst)
      obtain rfl : a = base := by omega
      rw [if_neg hnot, ← List.range'_succ, Nat.min_eq_left (by omega), Nat.add_sub_cancel_left]

/-- An acknowledgement frees the sent packets that come before it. -/
theorem Linked.release (h : Linked s r) {ack : Seq} {acks : List Seq}
    (hacks : r.acks = ack :: acks) {sent rest : List DataPacket}
    (hsent : s.outstanding = sent ++ rest) :
    Linked
      { s with
        outstanding := sent.dropWhile (fun packet => follows s.windowSize ack packet.seq) ++ rest
        free := s.free + (sent.length -
          (sent.dropWhile fun packet => follows s.windowSize ack packet.seq).length) }
      { r with acks := acks } := by
  obtain ⟨history, w, h⟩ := h
  rw [h.acks, map_eq_cons_iff] at hacks
  obtain ⟨a, numbers, hnumbers, rfl, rfl⟩ := hacks
  have ha : a ∈ w.acks := by
    rw [hnumbers]
    exact mem_cons_self
  have hsmall := h.small
  have hge := h.valid.acks_ge a ha
  have hcount := h.free
  -- the sent packets are the first ones of the window
  obtain ⟨k, hk, rfl, rfl⟩ : ∃ k ≤ w.next - w.base,
      sent = (List.range' w.base k).map (packetAt history) ∧
      rest = (List.range' (w.base + k) (w.next - w.base - k)).map (packetAt history) := by
    rw [h.outstanding, eq_comm, append_eq_map_iff] at hsent
    obtain ⟨first, second, hrange, rfl, rfl⟩ := hsent
    obtain ⟨k, hk, rfl, rfl⟩ := List.range'_eq_append_iff.1 hrange
    rw [Nat.mul_one]
    exact ⟨k, hk, rfl, rfl⟩
  have hfollows : ∀ i, w.base ≤ i → i < w.base + k →
      (follows s.windowSize (residue a) (packetAt history i).seq = true ↔ i < a) := fun i hlow hhigh =>
    GoBackN.ack_follows_kept h.valid (by omega) ha hlow (by omega)
  have hdrop := dropWhile_range' _ a w.base k hge hfollows
  generalize hnew : min a (w.base + k) = base at hdrop
  have hkept : (List.range' base (w.base + k - base)) ++
      List.range' (w.base + k) (w.next - w.base - k) = List.range' base (w.next - base) := by
    have hmiddle : w.base + k = base + (w.base + k - base) := by omega
    have hall : w.next - base = (w.base + k - base) + (w.next - w.base - k) := by omega
    rw [hall, ← List.range'_append_1, ← hmiddle]
  refine ⟨history, { w with base := base, acks := numbers },
    { h with
      valid := h.valid.release hnumbers (by omega) (by omega)
      acks := rfl, outstanding := ?_, free := ?_ }⟩
  · rw [dropWhile_map, Function.comp_def, hdrop, ← map_append, hkept]
  · rw [dropWhile_map, Function.comp_def, hdrop]
    simp only [length_map, length_range']
    omega

/-- A packet arrives: the expected one is taken, and one that was taken before is
known to be acknowledged. -/
theorem Linked.arrive (h : Linked s r) {packet : DataPacket} {inFlight : List DataPacket}
    (hflight : s.inFlight = packet :: inFlight) :
    (packet.seq = r.expected →
      Linked { s with inFlight := inFlight }
        { r with
          expected := r.expected + 1
          ack := if follows s.windowSize r.ack packet.seq then r.ack else packet.seq + 1
          taken := r.taken ++ packet.payload }) ∧
    (packet.seq ≠ r.expected → follows s.windowSize packet.seq r.expected = false →
      follows s.windowSize r.ack packet.seq = true) := by
  obtain ⟨history, w, h⟩ := h
  rw [h.inFlight, map_eq_cons_iff] at hflight
  obtain ⟨i, data, hdata, rfl, rfl⟩ := hflight
  have hi : i ∈ w.data := by
    rw [hdata]
    exact mem_cons_self
  have hsmall := h.small
  have hlt := h.valid.data_lt i hi
  have hlength := h.length
  have hexpected : (packetAt history i).seq = r.expected ↔ i = w.expected := by
    rw [h.expected]
    exact GoBackN.data_eq_expected h.valid (by omega) hi
  constructor
  · intro heq
    obtain rfl := hexpected.1 heq
    have hnot : ¬ follows s.windowSize r.ack (packetAt history w.expected).seq = true := by
      rw [h.ack]
      exact fun hfollows => lt_irrefl _
        ((GoBackN.expected_follows_data h.valid (by omega) hi).1 hfollows)
    refine ⟨history, { w with expected := w.expected + 1, data := data },
      { h with valid := h.valid.take hdata, inFlight := rfl, expected := ?_, ack := ?_, taken := ?_ }⟩
    · rw [h.expected, residue_succ]
    · rw [if_neg hnot]
      exact residue_succ w.expected
    · rw [h.taken, take_add_one, flatten_append]
      simp [packetAt, List.getElem?_eq_getElem (by omega : w.expected < history.length)]
  · intro hne hnot
    have hbehind : i < w.expected := by
      by_contra hge
      have hahead : w.expected < i := lt_of_le_of_ne (by omega) (fun heq => hne (hexpected.2 heq.symm))
      have htrue := GoBackN.data_follows_expected (m := 8) h.valid (by omega) hi hahead
      rw [h.expected] at hnot
      exact absurd (htrue.symm.trans hnot) (by decide)
    rw [h.ack]
    exact (GoBackN.expected_follows_data h.valid (by omega) hi).2 hbehind

end AllJoyn.Slap
