import AllJoyn.Lib.Run
import Mathlib.Data.BitVec
import Mathlib.Data.List.Perm.Basic

/-!
The lists of the thin client's serial transmitter (`aj_serial_tx.c`): the data packets go round from
`txFreeList` over `txQueue` and `txSent`. The unreliable packet is queued at the front of `txQueue`
only, so that a flag says whether it is there. What a caller decides by the parameters of the link
comes with the action.
-/

namespace AllJoyn.ThinClient.SerialTx

open Lib.Run List

/-- One of the allocated packets, with its sequence number. -/
structure TxPkt where
  index : Nat
  seq : BitVec 3
  deriving DecidableEq, Repr

structure Lists where
  /-- `txQueue == txUnreliable` -/
  unreliable : Bool := false
  /-- The data packets of the queue. -/
  txQueue : List TxPkt := []
  txSent : List TxPkt := []
  txFreeList : List Nat
  txSeqNum : BitVec 3 := 0
  deriving DecidableEq, Repr

/-- `AJ_SerialTX_Init`. -/
def init (maxWindowSize : Nat) : Lists where
  txFreeList := (List.range maxWindowSize).reverse

def seqGt (windowSize : Nat) (s1 s2 : BitVec 3) : Bool := (7 + s1 - s2).toNat < windowSize

/-- The loop of `AJ_SerialTx_ReceivedAck`. -/
def release (acked : BitVec 3 → Bool) : List TxPkt → List Nat → List TxPkt × List Nat
  | [], free => ([], free)
  | pkt :: sent, free =>
    if acked pkt.seq then release acked sent (pkt.index :: free) else (pkt :: sent, free)

inductive Action where
  /-- A turn of the inner loop of `AJ_SerialSend`. -/
  | send
  | enqueueCtrl
  /-- A turn of the loop of `AJ_FillTxBufferList`. -/
  | fillTxBuffer
  | receivedAck (ack : BitVec 3) (windowSize : Nat)
  | resendPackets (linkActive : Bool)
  | reset

def step (tx : Lists) : Action → Lists
  | .send =>
    match tx.txFreeList with
    | [] => tx
    | index :: free =>
      { tx with
        txQueue := tx.txQueue ++ [⟨index, tx.txSeqNum⟩]
        txFreeList := free
        txSeqNum := tx.txSeqNum + 1 }
  | .enqueueCtrl => { tx with unreliable := true }
  | .fillTxBuffer =>
    if tx.unreliable then { tx with unreliable := false }
    else
      match tx.txQueue with
      | [] => tx
      | txCurrent :: queue => { tx with txQueue := queue, txSent := tx.txSent ++ [txCurrent] }
  | .receivedAck ack windowSize =>
    let (sent, free) := release (seqGt windowSize ack) tx.txSent tx.txFreeList
    { tx with txSent := sent, txFreeList := free }
  | .resendPackets linkActive =>
    match linkActive, tx.txSent.getLast? with
    | true, some last =>
      -- behind the unreliable packet the queue goes on with the last packet sent
      if tx.unreliable then { tx with txQueue := last :: tx.txQueue, txSent := [] }
      else { tx with txQueue := tx.txSent ++ tx.txQueue, txSent := [] }
    | _, _ => tx
  | .reset =>
    { txFreeList := ((tx.txSent ++ tx.txQueue).map TxPkt.index).reverse ++ tx.txFreeList }

/-- The packets have the numbers in front of `next`. -/
def InOrder (next : BitVec 3) : List TxPkt → Prop
  | [] => True
  | pkt :: rest => pkt.seq + BitVec.ofNat 3 (rest.length + 1) = next ∧ InOrder next rest

/-- Every packet is on one list, and the unacknowledged and the queued ones are in order. -/
structure Sound (maxWindowSize : Nat) (tx : Lists) : Prop where
  once : ((tx.txSent ++ tx.txQueue).map TxPkt.index ++ tx.txFreeList).Perm
    (List.range maxWindowSize)
  ordered : InOrder tx.txSeqNum (tx.txSent ++ tx.txQueue)

/-- Packets are not sent again behind the unreliable one, or at most one is. -/
def Keeps (tx : Lists) : Action → Prop
  | .resendPackets linkActive => linkActive → tx.unreliable → tx.txSent.length ≤ 1
  | _ => True

variable {next : BitVec 3} {pkts : List TxPkt} {n : Nat} {tx : Lists}

theorem InOrder.push (index : Nat) (h : InOrder next pkts) :
    InOrder (next + 1) (pkts ++ [⟨index, next⟩]) := by
  induction pkts with
  | nil => exact ⟨rfl, trivial⟩
  | cons pkt rest ih =>
    refine ⟨?_, ih h.2⟩
    rw [← h.1, BitVec.add_assoc]
    simp [← BitVec.ofNat_add]

theorem InOrder.suffix {first : List TxPkt} (h : InOrder next (first ++ pkts)) :
    InOrder next pkts := by
  induction first with
  | nil => exact h
  | cons pkt rest ih => exact ih h.2

theorem release_eq (acked : BitVec 3 → Bool) (sent : List TxPkt) (free : List Nat) :
    ∃ first, sent = first ++ (release acked sent free).1 ∧
      (release acked sent free).2 = (first.map TxPkt.index).reverse ++ free := by
  induction sent generalizing free with
  | nil => exact ⟨[], rfl, rfl⟩
  | cons pkt sent ih =>
    rw [release]
    split
    · obtain ⟨first, hsent, hfree⟩ := ih (pkt.index :: free)
      exact ⟨pkt :: first, by rw [cons_append, ← hsent], by simp [hfree]⟩
    · exact ⟨[], rfl, rfl⟩

theorem step_sound_iff (action : Action) (h : Sound n tx) :
    Sound n (step tx action) ↔ Keeps tx action := by
  obtain ⟨unreliable, queue, sent, free, number⟩ := tx
  obtain ⟨honce, hordered⟩ := h
  cases action with
  | send =>
    cases free with
    | nil => exact iff_of_true ⟨honce, hordered⟩ trivial
    | cons index free =>
      refine iff_of_true ⟨?_, ?_⟩ trivial
      · simpa [step] using honce
      · simpa [step] using hordered.push index
  | enqueueCtrl => exact iff_of_true ⟨honce, hordered⟩ trivial
  | fillTxBuffer =>
    refine iff_of_true ?_ trivial
    cases unreliable with
    | true => exact ⟨honce, hordered⟩
    | false =>
      cases queue with
      | nil => exact ⟨honce, hordered⟩
      | cons txCurrent queue => exact ⟨by simpa [step] using honce, by simpa [step] using hordered⟩
  | receivedAck ack windowSize =>
    obtain ⟨first, hsent, hfree⟩ := release_eq (seqGt windowSize ack) sent free
    simp only [step]
    rw [hsent, append_assoc] at honce hordered
    refine iff_of_true ⟨(perm_iff_count.2 fun index => ?_).trans honce, hordered.suffix⟩ trivial
    simp only [hfree, map_append, count_append, count_reverse]
    omega
  | resendPackets linkActive =>
    cases linkActive with
    | false => exact iff_of_true ⟨honce, hordered⟩ nofun
    | true =>
      rcases eq_nil_or_concat sent with rfl | ⟨first, last, rfl⟩
      · exact iff_of_true ⟨honce, hordered⟩ fun _ _ => Nat.zero_le 1
      cases unreliable with
      | false =>
        refine iff_of_true ⟨?_, ?_⟩ nofun
        · simpa [step] using honce
        · simpa [step] using hordered
      | true =>
        refine ⟨fun h _ _ => ?_, fun hshort => ?_⟩
        · have hlength := h.once.length_eq.trans honce.length_eq.symm
          simp [step] at hlength ⊢
          omega
        · obtain rfl : first = [] := by simpa using hshort rfl rfl
          exact ⟨by simpa [step] using honce, by simpa [step] using hordered⟩
  | reset =>
    refine iff_of_true ⟨?_, trivial⟩ trivial
    exact (List.Perm.append_right _ (reverse_perm _)).trans honce

/-- The lists are sound throughout exactly the runs in which no two packets are sent again behind
the unreliable one. -/
theorem serialTx_sound_iff (maxWindowSize : Nat) (actions : List Action) :
    (∀ before, before <+: actions →
      Sound maxWindowSize (before.foldl step (init maxWindowSize))) ↔
      Meets step Keeps (init maxWindowSize) actions :=
  Meets.iff_invariant (Sound maxWindowSize) (fun _ action h => step_sound_iff action h)
    ⟨reverse_perm _, trivial⟩

/-- Two packets are sent, an acknowledgement is queued, and the first packet is gone. -/
theorem resend_loses_packet : ¬Sound 2 ([.send, .send, .fillTxBuffer, .fillTxBuffer, .enqueueCtrl,
    .resendPackets true].foldl step (init 2)) := by
  rintro ⟨honce, -⟩
  exact absurd honce (by decide)

/-! ### The window -/

/-- The assertions on the window that a step evaluates, in `txSentPending` and behind it in
`ConvertPacketToBytes`. -/
def Asserts (windowSize : Nat) (tx : Lists) : Action → Prop
  | .fillTxBuffer => tx.unreliable = false → tx.txQueue ≠ [] →
      tx.txSent.length ≤ windowSize ∧ tx.txSent.length ≠ windowSize
  | _ => True

/-- The lists hold at most the packets that were allocated. -/
def Allocated (n : Nat) (tx : Lists) : Prop :=
  tx.txSent.length + tx.txQueue.length + tx.txFreeList.length ≤ n

theorem Allocated.step (action : Action) (h : Allocated n tx) : Allocated n (step tx action) := by
  obtain ⟨unreliable, queue, sent, free, number⟩ := tx
  simp only [Allocated] at h
  cases action with
  | send => cases free <;> simp [SerialTx.step, Allocated] at h ⊢ <;> omega
  | enqueueCtrl => exact h
  | fillTxBuffer =>
    cases unreliable <;> cases queue <;> simp [SerialTx.step, Allocated] at h ⊢ <;> omega
  | receivedAck ack windowSize =>
    obtain ⟨first, hsent, hfree⟩ := release_eq (seqGt windowSize ack) sent free
    rw [hsent] at h
    simp [SerialTx.step, Allocated, hfree] at h ⊢
    omega
  | resendPackets linkActive =>
    rcases eq_nil_or_concat sent with rfl | ⟨first, last, rfl⟩
    · cases linkActive <;> exact h
    · cases linkActive <;> cases unreliable <;> simp [SerialTx.step, Allocated] at h ⊢ <;> omega
  | reset =>
    simp [SerialTx.step, Allocated]
    omega

/-- Every free packet can be sent before the first acknowledgement. -/
theorem sent_length (tx : Lists) (count : Nat) (hunreliable : tx.unreliable = false)
    (hqueue : tx.txQueue = []) (hfree : count ≤ tx.txFreeList.length) :
    (((List.replicate count [.send, .fillTxBuffer]).flatten).foldl step tx).txSent.length =
      tx.txSent.length + count := by
  induction count generalizing tx with
  | zero => rfl
  | succ count ih =>
    obtain ⟨unreliable, queue, sent, free, number⟩ := tx
    obtain rfl : unreliable = false := hunreliable
    obtain rfl : queue = [] := hqueue
    obtain ⟨index, free, rfl⟩ := exists_cons_of_length_pos (Nat.zero_lt_of_lt hfree)
    have hrest := ih ⟨false, [], sent ++ [⟨index, number⟩], free, number + 1⟩ rfl rfl
      (Nat.le_of_succ_le_succ hfree)
    exact hrest.trans (by simp; omega)

/-- In every run the window is kept and its assertions hold exactly if the window is as large as
the number of packets allocated. -/
theorem window_kept_iff (maxWindowSize windowSize : Nat) :
    (∀ actions, Meets step (Asserts windowSize) (init maxWindowSize) actions ∧
        (actions.foldl step (init maxWindowSize)).txSent.length ≤ windowSize) ↔
      maxWindowSize ≤ windowSize := by
  constructor
  · intro hkept
    have hsent := sent_length (init maxWindowSize) maxWindowSize rfl rfl (by simp [init])
    have hwindow := (hkept _).2.trans' hsent.ge
    simpa [init] using hwindow
  · intro hle actions
    have hinit : Allocated maxWindowSize (init maxWindowSize) := by simp [Allocated, init]
    have hrun (before : List Action) := foldl_invariant (Allocated maxWindowSize)
      (fun _ action h => h.step action) hinit before
    refine ⟨(Meets.iff_invariant (Allocated maxWindowSize) (fun tx action h => ?_) hinit).1
      fun before _ => hrun before, ?_⟩
    · refine iff_of_true (h.step action) ?_
      cases action with
      | fillTxBuffer =>
        intro _ hqueue
        have hpos := length_pos_iff.2 hqueue
        simp only [Allocated] at h
        omega
      | _ => trivial
    · have hall := hrun actions
      simp only [Allocated] at hall
      omega

/-- With two packets and a window of one, both are sent. -/
theorem window_exceeded :
    ¬Asserts 1 ([.send, .send, .fillTxBuffer].foldl step (init 2)) .fillTxBuffer ∧
      1 < ([.send, .send, .fillTxBuffer, .fillTxBuffer].foldl step (init 2)).txSent.length :=
  ⟨fun h => (h rfl (cons_ne_nil _ _)).2 rfl, by decide⟩

end AllJoyn.ThinClient.SerialTx
