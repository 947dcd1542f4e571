import AllJoyn.Lib.Run

/-!
The SLIP decoders of both ends of a serial line: `SLAPReadPacket::DeSlip` and the
thin client's `UART_RxComplete`. They store the bytes of a packet through the
same four states and differ in what they do at the boundary that closes it. The
test for an overrun stands only before a plain byte is stored, and it compares
with the capacity for equality. The position in the buffer is a `uint16_t`, so with a
capacity above 65535 it goes round in front of the end. An escaped byte that is
stored behind a full buffer is outside of the allocation, so what the source does
afterwards is undefined; the results are about the steps up to that one.
-/

namespace AllJoyn.Slap.Slip

open Lib.Run

def boundaryByte : UInt8 := 0xC0
def boundarySubstitute : UInt8 := 0xDC
def escapeByte : UInt8 := 0xDB
def escapeSubstitute : UInt8 := 0xDD

inductive PacketState where
  | flush
  | new
  | opened
  | escape
  deriving DecidableEq, Repr

/-- A packet that is being received, with the bytes stored for it. -/
structure Packet where
  state : PacketState := .new
  stored : List UInt8 := []
  deriving DecidableEq, Repr

/-- `m_totalLen`: where the next byte is stored. -/
def Packet.totalLen (pkt : Packet) : Nat := pkt.stored.length % 65536

/-- The bytes of the buffer that were written. -/
def Packet.occupied (pkt : Packet) : Nat := min pkt.stored.length 65536

inductive Decoder where
  | deSlip
  | uartRxComplete
  deriving DecidableEq, Repr

/-- The bytes allocated for a packet: `SLAP_DESLIPPED_LENGTH`, and `maxRxFrameSize`,
which is a `uint16_t`. -/
def Decoder.capacity (payloadSize : Nat) : Decoder → Nat
  | .deSlip => 4 + payloadSize + 2
  | .uartRxComplete => (payloadSize + 2 + 4) % 65536

/-- The packet behind the boundary that closes it. `DeSlip` returns and leaves it
open, for its caller to clear. -/
def Decoder.closed : Decoder → Packet → Packet
  | .deSlip, pkt => pkt
  | .uartRxComplete, pkt => { pkt with state := .new }

/-- A byte in the state `PACKET_NEW`. -/
def Packet.begin (rx : UInt8) : Packet where
  state := if rx = boundaryByte then .opened else .flush

/-- One turn of either loop, or two where an escape sequence is bad and its byte is
looked at once more. -/
def receive (d : Decoder) (capacity : Nat) (pkt : Packet) (rx : UInt8) : Packet :=
  match pkt.state with
  | .flush => if rx = boundaryByte then { pkt with state := .new } else pkt
  | .new => .begin rx
  | .escape =>
    if rx = boundarySubstitute then ⟨.opened, pkt.stored ++ [boundaryByte]⟩
    else if rx = escapeSubstitute then ⟨.opened, pkt.stored ++ [escapeByte]⟩
    else .begin rx
  | .opened =>
    if rx = boundaryByte then d.closed pkt
    else if rx = escapeByte then { pkt with state := .escape }
    else if pkt.totalLen = capacity then { pkt with state := .new }
    else { pkt with stored := pkt.stored ++ [rx] }

def Packet.closes (pkt : Packet) (rx : UInt8) : Prop := pkt.state = .opened ∧ rx = boundaryByte

instance Packet.closes.decidable (pkt : Packet) (rx : UInt8) : Decidable (pkt.closes rx) :=
  inferInstanceAs (Decidable (_ ∧ _))

/-- `DeSlip` on a chunk: whether it returns `ER_OK`, the packet and what it did not
read. -/
def deSlip (capacity : Nat) : Packet → List UInt8 → Bool × Packet × List UInt8
  | pkt, [] => (false, pkt, [])
  | pkt, rx :: rest =>
    let next := receive .deSlip capacity pkt rx
    if pkt.closes rx then (true, next, rest) else deSlip capacity next rest

/-- `UART_RxComplete` on a chunk. With each byte comes whether `CompletePacket`, were it
called for this byte, puts the packet on the receive queue and goes on with one
from the free list, which is in the state `PACKET_NEW`. -/
def uartRxComplete (capacity : Nat) : Packet → List (UInt8 × Bool) → Packet
  | pkt, [] => pkt
  | pkt, (rx, queued) :: rest =>
    let next := receive .uartRxComplete capacity pkt rx
    uartRxComplete capacity (if pkt.closes rx ∧ queued then {} else next) rest

/-- What happens to a decoder: a byte, or another packet in the place of the current
one, by `Clear` or from the free list. -/
inductive Input where
  | byte (rx : UInt8)
  | renew
  deriving DecidableEq, Repr

def Input.rx? : Input → Option UInt8
  | .byte rx => some rx
  | .renew => none

def step (d : Decoder) (capacity : Nat) (pkt : Packet) : Input → Packet
  | .byte rx => receive d capacity pkt rx
  | .renew => {}

/-- The input does not end an escape sequence behind a full buffer. -/
def Room (capacity : Nat) (pkt : Packet) (input : Input) : Prop :=
  pkt.state = .escape ∧ pkt.totalLen = capacity →
    input ≠ .byte boundarySubstitute ∧ input ≠ .byte escapeSubstitute

/-- From a packet that fits, a step stores too much exactly where there is no room. -/
theorem occupied_step_le_iff (d : Decoder) (capacity : Nat) (pkt : Packet) (input : Input)
    (hpkt : pkt.occupied ≤ capacity) :
    (step d capacity pkt input).occupied ≤ capacity ↔ Room capacity pkt input := by
  cases input with
  | renew => simp [step, Room, Packet.occupied]
  | byte rx =>
    obtain ⟨state, stored⟩ := pkt
    simp only [Packet.occupied] at hpkt ⊢
    cases state with
    | flush =>
      simp only [step, receive, Room]
      split <;> simp_all
    | new => simp [step, receive, Room, Packet.begin]
    | opened =>
      simp only [step, receive, Room, Packet.totalLen]
      cases d <;> grind [Decoder.closed]
    | escape =>
      simp only [step, receive, Room, Packet.totalLen]
      grind [Packet.begin]

/-- A call of `DeSlip` is a run over the bytes that it reads. -/
theorem deSlip_run (capacity : Nat) (pkt : Packet) (chunk : List UInt8) :
    ∃ read, read ++ (deSlip capacity pkt chunk).2.2 = chunk ∧
      (deSlip capacity pkt chunk).2.1 = (read.map .byte).foldl (step .deSlip capacity) pkt := by
  induction chunk generalizing pkt with
  | nil => exact ⟨[], rfl, rfl⟩
  | cons rx rest ih =>
    rw [deSlip]
    split
    · exact ⟨[rx], rfl, rfl⟩
    · obtain ⟨read, hread, hpkt⟩ := ih (receive .deSlip capacity pkt rx)
      exact ⟨rx :: read, congrArg (rx :: ·) hread, hpkt⟩

/-- A call of `UART_RxComplete` is a run over its bytes, with another packet behind
some of the closing boundaries. -/
theorem uartRxComplete_run (capacity : Nat) (pkt : Packet) (chunk : List (UInt8 × Bool)) :
    ∃ inputs : List Input, inputs.filterMap Input.rx? = chunk.map Prod.fst ∧
      uartRxComplete capacity pkt chunk =
        inputs.foldl (step .uartRxComplete capacity) pkt := by
  induction chunk generalizing pkt with
  | nil => exact ⟨[], rfl, rfl⟩
  | cons first rest ih =>
    obtain ⟨rx, queued⟩ := first
    rw [uartRxComplete]
    split
    · obtain ⟨inputs, hbytes, hpkt⟩ := ih {}
      exact ⟨.byte rx :: .renew :: inputs, congrArg (rx :: ·) hbytes, hpkt⟩
    · obtain ⟨inputs, hbytes, hpkt⟩ := ih (receive .uartRxComplete capacity pkt rx)
      exact ⟨.byte rx :: inputs, congrArg (rx :: ·) hbytes, hpkt⟩

/-- Whatever the chunks are, a decoder is driven by its bytes one after the other, and
the packet fits in every state of a run exactly where no escape sequence ends behind
a full buffer. -/
theorem stored_le_capacity_iff (payloadSize : Nat) :
    (∀ (d : Decoder) (inputs : List Input), let capacity := d.capacity payloadSize
      (∀ before, before <+: inputs →
        (before.foldl (step d capacity) {}).occupied ≤ capacity) ↔
      Meets (step d capacity) (Room capacity) {} inputs) ∧
    (∀ capacity pkt chunk, ∃ read, read ++ (deSlip capacity pkt chunk).2.2 = chunk ∧
      (deSlip capacity pkt chunk).2.1 = (read.map .byte).foldl (step .deSlip capacity) pkt) ∧
    ∀ capacity pkt chunk, ∃ inputs : List Input,
      inputs.filterMap Input.rx? = chunk.map Prod.fst ∧
        uartRxComplete capacity pkt chunk = inputs.foldl (step .uartRxComplete capacity) pkt := by
  refine ⟨fun d inputs => ?_, deSlip_run, uartRxComplete_run⟩
  have hinitial : ({} : Packet).occupied ≤ d.capacity payloadSize := Nat.zero_le _
  exact Meets.iff_invariant (fun pkt => pkt.occupied ≤ d.capacity payloadSize)
    (fun pkt input => occupied_step_le_iff d _ pkt input) hinitial

/-- With a payload of one byte the capacity is seven bytes. Behind seven plain ones an
escaped one is stored, and from then on every plain one. -/
theorem stored_above_capacity :
    let stream : List UInt8 := [0xC0, 1, 2, 3, 4, 5, 6, 7, 0xDB, 0xDC, 9, 10]
    Decoder.deSlip.capacity 1 = 7 ∧ (deSlip 7 {} stream).2.1.occupied = 10 ∧
      Decoder.uartRxComplete.capacity 1 = 7 ∧
      (uartRxComplete 7 {} (stream.map (·, true))).occupied = 10 := by
  decide

end AllJoyn.Slap.Slip
