import AllJoyn.Slap.Slip
import AllJoyn.Status

/-!
A packet that was received on a serial line, from `SLAPPacket.cc`: the checks of `Validate`
on what `DeSlip` stored, and `FillBuffer`, with the turns that `SLAPStream::PullBytes` makes with
it. The loop of `Validate` over the time of an `OFFL` packet counts in a `uint8_t`, so it
takes room for a number of turns and may want more than any.
-/

namespace AllJoyn.Slap.ReadPacket

/-- An entry of the `crcTable` of `Util.cc`, for the polynomial 0x1021 with its bits reversed. -/
def crcTable (index : UInt16) : UInt16 :=
  Nat.repeat (fun crc => if crc &&& 1 = 1 then (crc >>> 1) ^^^ 0x8408 else crc >>> 1) 8 index

def crc16Compute (buffer : List UInt8) (runningCrc : UInt16) : UInt16 :=
  buffer.foldl (fun crc b => crcTable ((crc ^^^ b.toUInt16) &&& 0xFF) ^^^ (crc >>> 8)) runningCrc

/-- The bits of a number below 16 in reverse. -/
def rev (i : UInt16) : UInt8 :=
  [0x0, 0x8, 0x4, 0xc, 0x2, 0xa, 0x6, 0xe, 0x1, 0x9, 0x5, 0xd, 0x3, 0xb, 0x7, 0xf].getD i.toNat 0

def crc16Complete (crc : UInt16) : List UInt8 :=
  [(rev (crc &&& 0xF) <<< 4) ||| rev ((crc >>> 4) &&& 0xF),
    (rev ((crc >>> 8) &&& 0xF) <<< 4) ||| rev (crc >>> 12)]

/-- The checksum of a header and a payload, from `CRC_INIT`. -/
def checkCrc (content : List UInt8) : List UInt8 := crc16Complete (crc16Compute content 0xFFFF)

inductive PacketType where
  | invalid
  | reliableData
  | ctrl
  | ack
  deriving DecidableEq, Repr

inductive ControlPacketType where
  | unknown
  | conn
  | accept
  | nego
  | negoResp
  | disconn
  | disconnResp
  | offline
  | offlineResp
  | offlineRej
  deriving DecidableEq, Repr

/-- What `Validate` sets. The bytes of `m_readPtr` are the payload. -/
structure Fields where
  ackNum : UInt8 := 0
  sequenceNum : UInt8 := 0
  packetType : PacketType := .invalid
  controlType : ControlPacketType := .unknown
  configField : List UInt8 := [0, 0, 0]
  offlineTime : UInt32 := 0
  payload : List UInt8 := []
  deriving DecidableEq, Repr

/-- `LinkCtrlPacketNames` and `ExpectedLen` without their first entry. -/
def linkCtrlPackets : List (ControlPacketType × List Char × Nat) :=
  [(.conn, ['C', 'O', 'N', 'N'], 4), (.accept, ['A', 'C', 'P', 'T'], 4),
    (.nego, ['N', 'E', 'G', 'O'], 7), (.negoResp, ['N', 'R', 'S', 'P'], 7),
    (.disconn, ['D', 'I', 'S', 'C'], 4), (.disconnResp, ['D', 'R', 'S', 'P'], 4),
    (.offline, ['O', 'F', 'F', 'L'], 5), (.offlineResp, ['O', 'F', 'F', 'R'], 0),
    (.offlineRej, ['O', 'F', 'F', 'C'], 0)]

/-- The entry whose name is at the start of the payload. -/
def linkCtrlPacket (buffer : List UInt8) : Option (ControlPacketType × List Char × Nat) :=
  linkCtrlPackets.find? fun entry => entry.2.1 = ((buffer.drop 4).take 4).map (Char.ofNat ·.toNat)

/-- The loop over the time, whose counter is a `uint8_t`. -/
def offlineLoop (buffer : List UInt8) (pktLen : Nat) : Nat → UInt8 → UInt32 → Option UInt32
  | 0, _, _ => none
  | turns + 1, j, time =>
    if j.toNat < pktLen then
      offlineLoop buffer pktLen turns (j + 1) (time * 0x100 + (buffer.getD j.toNat 0).toUInt32)
    else some time

/-- The branch of `CTRL_PACKET`. -/
def validateCtrl (turns : Nat) (buffer : List UInt8) (pktLen : Nat) (fields : Fields) :
    Option (QStatus × Fields) :=
  match linkCtrlPacket buffer with
  | none => some (.slapError, fields)
  | some (thisPkt, _, expectedLen) =>
    if thisPkt = .offline then
      if expectedLen ≤ pktLen then
        -- The status remains that of a packet without a known name.
        (offlineLoop buffer pktLen turns 4 0).map fun time =>
          (.slapError, { fields with offlineTime := time })
      else some (.slapInvalidPacketLen, fields)
    else if pktLen = expectedLen then
      some (.ok, { fields with
        controlType := thisPkt
        configField :=
          if thisPkt = .nego ∨ thisPkt = .negoResp then (buffer.drop 8).take 3
          else fields.configField })
    else some (.slapInvalidPacketLen, fields)

section Checks

variable (received : List UInt8)

def crcMatches : Bool :=
  received.drop (received.length - 2) = checkCrc (received.take (received.length - 2))

def packetType : PacketType :=
  let type := received.getD 1 0 &&& 0x0F
  if type = 0 then .reliableData
  else if type = 14 then .ctrl
  else if type = 15 then .ack
  else .invalid

def lenMatches : Bool :=
  (received.getD 2 0).toNat * 256 + (received.getD 3 0).toNat = received.length - 6

end Checks

/-- `Validate` on the bytes below `m_totalLen`, with what the buffer holds behind them. -/
def validate (turns : Nat) (received stale : List UInt8) : Option (QStatus × Fields) :=
  if received.length < 6 then some (.slapInvalidPacketLen, {})
  else if ¬crcMatches received then some (.slapCrcError, {})
  else
    let fields : Fields :=
      { ackNum := received.getD 0 0 &&& 0x0F
        sequenceNum := (received.getD 0 0 >>> 4) &&& 0x0F
        packetType := packetType received }
    if packetType received = .invalid then some (.slapInvalidPacketType, fields)
    else if ¬lenMatches received then some (.slapLenMismatch, fields)
    else
      match packetType received with
      | .reliableData =>
        some (.ok, { fields with payload := (received.drop 4).take (received.length - 6) })
      | .ack => some (.ok, fields)
      | .ctrl => validateCtrl turns (received ++ stale) (received.length - 6) fields
      | .invalid => some (.slapError, fields)

/-- `FillBuffer`: the bytes that it copies, of a number that it takes as one of 16 bits, and those
that remain. -/
def fillBuffer (payload : List UInt8) (reqBytes : Nat) : List UInt8 × List UInt8 :=
  let actualBytes := min (reqBytes % 65536) payload.length
  (payload.take actualBytes, payload.drop actualBytes)

/-- A turn of the loop of `PullBytes`: the bytes that it copies, and the queue behind it. -/
def pullTurn (bytesRemaining : Nat) : List (List UInt8) → List UInt8 × List (List UInt8)
  | [] => ([], [])
  | payload :: queue =>
    let (bytes, rest) := fillBuffer payload bytesRemaining
    (bytes, if rest = [] then queue else rest :: queue)

/-- A packet that gets to the loop, with a payload that the counter of the loop does not
get to the end of. -/
def Endless (received stale : List UInt8) : Prop :=
  crcMatches received ∧ packetType received = .ctrl ∧ lenMatches received ∧
    (linkCtrlPacket (received ++ stale)).map Prod.fst = some .offline ∧ 255 < received.length - 6

theorem crcMatches_append (content : List UInt8) : crcMatches (content ++ checkCrc content) := by
  have hlength : (content ++ checkCrc content).length - 2 = content.length := by
    simp [checkCrc, crc16Complete]
  rw [crcMatches, hlength, List.drop_left, List.take_left, decide_eq_true rfl]

variable {buffer : List UInt8} {pktLen : Nat}

theorem offlineLoop_none (hlong : 255 < pktLen) (turns : Nat) (j : UInt8) (time : UInt32) :
    offlineLoop buffer pktLen turns j time = none := by
  induction turns generalizing j time with
  | zero => rfl
  | succ turns ih =>
    have hbelow : j.toNat < pktLen := Nat.lt_of_lt_of_le j.toNat_lt hlong
    rw [offlineLoop, if_pos hbelow]
    exact ih _ _

theorem offlineLoop_isSome (hshort : pktLen ≤ 255) {turns : Nat} {j : UInt8}
    (hturns : pktLen ≤ j.toNat + turns) (time : UInt32) :
    (offlineLoop buffer pktLen (turns + 1) j time).isSome := by
  induction turns generalizing j time with
  | zero =>
    have hend : ¬j.toNat < pktLen := by omega
    rw [offlineLoop, if_neg hend]
    rfl
  | succ turns ih =>
    rw [offlineLoop]
    split
    · have hnext : (j + 1).toNat = j.toNat + 1 := by
        rw [UInt8.toNat_add, UInt8.toNat_one, Nat.mod_eq_of_lt (by omega)]
      exact ih (by omega) _
    · rfl

theorem validateCtrl_isSome (fields : Fields)
    (hshort : (linkCtrlPacket buffer).map Prod.fst = some .offline → pktLen ≤ 255) :
    (validateCtrl 256 buffer pktLen fields).isSome := by
  unfold validateCtrl
  cases hentry : linkCtrlPacket buffer with
  | none => rfl
  | some entry =>
    obtain ⟨thisPkt, name, expectedLen⟩ := entry
    rw [hentry] at hshort
    by_cases hoffline : thisPkt = .offline
    · have hlen : pktLen ≤ 255 := hshort (congrArg some hoffline)
      have hends : (offlineLoop buffer pktLen 256 4 0).isSome :=
        offlineLoop_isSome hlen (Nat.le_add_left_of_le hlen) 0
      simp only [hoffline, ↓reduceIte]
      split
      · rw [Option.isSome_map]
        exact hends
      · rfl
    · simp only [hoffline, ↓reduceIte]
      split <;> rfl

theorem Endless.validate_eq_none {received stale : List UInt8} (h : Endless received stale)
    (turns : Nat) : validate turns received stale = none := by
  obtain ⟨hcrc, htype, hlen, hname, hlong⟩ := h
  obtain ⟨⟨thisPkt, name, expectedLen⟩, hentry, hoffline⟩ := Option.map_eq_some_iff.1 hname
  have hexpected : expectedLen ≤ 7 :=
    (by decide : ∀ entry ∈ linkCtrlPackets, entry.2.2 ≤ 7) _ (List.mem_of_find?_eq_some hentry)
  have hreached : expectedLen ≤ received.length - 6 := by omega
  have hfull : ¬received.length < 6 := by omega
  obtain rfl : thisPkt = .offline := hoffline
  simp [validate, validateCtrl, hfull, hcrc, htype, hlen, hentry, hreached, offlineLoop_none hlong]

/-- `Validate` returns exactly for the packets that are not endless. A turn of `PullBytes` takes a
byte of a packet exactly where the number of those that remain to be read is no multiple of
65536, and it takes away a packet without any. -/
theorem validate_returns_iff (received stale payload : List UInt8) (queue : List (List UInt8))
    (bytesRemaining : Nat) :
    ((∃ turns result, validate turns received stale = some result) ↔ ¬Endless received stale) ∧
    (payload ≠ [] → 0 < bytesRemaining →
      ((pullTurn bytesRemaining (payload :: queue)).1 ≠ [] ↔ bytesRemaining % 65536 ≠ 0)) ∧
    pullTurn bytesRemaining ([] :: queue) = ([], queue) := by
  refine ⟨⟨?_, fun hends => ⟨256, ?_⟩⟩, ?_, ?_⟩
  · rintro ⟨turns, result, hresult⟩ hendless
    rw [hendless.validate_eq_none turns] at hresult
    cases hresult
  · rw [← Option.isSome_iff_exists]
    unfold validate
    split
    · rfl
    split
    · rfl
    split
    · rfl
    split
    · rfl
    cases htype : packetType received with
    | ctrl =>
      refine validateCtrl_isSome _ fun hname => ?_
      by_contra hlong
      exact hends ⟨by simp_all, htype, by simp_all, hname, by omega⟩
    | _ => rfl
  · intro hpayload hremaining
    simp only [pullTurn, fillBuffer, ne_eq, List.take_eq_nil_iff]
    grind
  · simp [pullTurn, fillBuffer]

/-- An `OFFL` packet with 252 bytes behind its name, and a request for 65536 bytes. -/
theorem validate_never_returns :
    let content : List UInt8 := [0, 14, 1, 0, 0x4F, 0x46, 0x46, 0x4C] ++ List.replicate 252 0
    (∀ turns, validate turns (content ++ checkCrc content) [] = none) ∧
      pullTurn 65536 [[1]] = ([], [[1]]) := by
  have hendless (behind : List UInt8) (hbehind : behind.length = 252) :
      let content := [0, 14, 1, 0, 0x4F, 0x46, 0x46, 0x4C] ++ behind
      Endless (content ++ checkCrc content) [] := by
    refine ⟨crcMatches_append _, by simp [packetType]; rfl, ?_, rfl, ?_⟩
    · simp [lenMatches, checkCrc, crc16Complete, hbehind]
    · simp [checkCrc, crc16Complete, hbehind]
  exact ⟨(hendless _ List.length_replicate).validate_eq_none, rfl⟩

/-! ### Reads -/

open Lib.Run Slip

/-- A stream with the packet that it receives, and all bytes of the buffer of that packet. -/
structure Receiver (σ : Type) where
  link : σ
  pkt : Slip.Packet
  buffer : List UInt8

variable {σ : Type} (process : σ → List UInt8 → Fields → σ × List UInt8)

/-- What `ReadEventTriggered` does at a byte, and whether it goes on behind it. `process` is what it
does with a valid packet, behind which another buffer may be in use. Nothing happens any more
once `Validate` does not return. -/
def onByte : Option (Receiver σ) → UInt8 → Bool × Option (Receiver σ)
  | none, _ => (true, none)
  | some s, rx =>
    let next := receive .deSlip s.buffer.length s.pkt rx
    if s.pkt.closes rx then
      match validate 256 (s.buffer.take s.pkt.totalLen) (s.buffer.drop s.pkt.totalLen) with
      | none => (true, none)
      | some (status, fields) =>
        if status = .ok then
          let (link, buffer) := process s.link s.buffer fields
          (true, some ⟨link, {}, buffer⟩)
        else (false, some { s with pkt := {} })
    else
      let stores := next.stored.length = s.pkt.stored.length + 1
      (true, some { s with
        pkt := next
        buffer := if stores then s.buffer.set s.pkt.totalLen (next.stored.getLastD 0)
          else s.buffer })

/-- `ReadEventTriggered` on a chunk. -/
def readEventTriggered (s : Option (Receiver σ)) (chunk : List UInt8) : Option (Receiver σ) :=
  readChunk (onByte process) s chunk

/-- The first byte behind a packet that is not valid is not without effect. -/
theorem onByte_moves (s : Option (Receiver σ)) (rx rx' : UInt8)
    (hstops : (onByte process s rx).1 = false) :
    (onByte process (onByte process s rx).2 rx').2 ≠ (onByte process s rx).2 := by
  have hcleared : ∃ r : Receiver σ, (onByte process s rx).2 = some { r with pkt := {} } := by
    cases s with
    | none => cases hstops
    | some r =>
      refine ⟨r, ?_⟩
      simp only [onByte] at hstops ⊢
      grind
  obtain ⟨r, hr⟩ := hcleared
  rw [hr]
  intro hsame
  simp [onByte, receive, Slip.Packet.closes, Slip.Packet.begin] at hsame
  grind

/-- However the bytes are divided into reads, the stream is in the same state after each of
them, exactly if every packet is valid that ends in front of the last byte. -/
theorem readEventTriggered_agree_iff (s : Option (Receiver σ)) (stream : List UInt8) :
    (∀ before, before <+: stream → ∀ first second : List (List UInt8), first.flatten = before →
      second.flatten = before → first.foldl (readEventTriggered process) s =
        second.foldl (readEventTriggered process) s) ↔
    GoesOn (onByte process) s stream :=
  reads_agree_iff (onByte_moves process) s stream

/-- A packet of one byte, and a packet with the payload 7 in the same read and in another one. -/
theorem packet_lost :
    let content : List UInt8 := [0, 0, 0, 1, 7]
    let bad : List UInt8 := [0xC0, 1, 0xC0]
    let good := 0xC0 :: content ++ checkCrc content ++ [0xC0]
    let link (chunks : List (List UInt8)) :=
      (chunks.foldl (readEventTriggered fun (queue : List (List UInt8)) buffer fields =>
        (queue ++ [fields.payload], buffer)) (some ⟨[], {}, List.replicate 38 0⟩)).map Receiver.link
    link [bad ++ good] = some [] ∧ link [bad, good] = some [[7]] := by
  decide +kernel

end AllJoyn.Slap.ReadPacket
