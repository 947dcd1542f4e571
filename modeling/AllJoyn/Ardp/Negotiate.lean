import AllJoyn.Ardp.Conn
import AllJoyn.Wire.MsgArg

/-!
The set-up of the send side of an ARDP connection from the SYN segment of the
peer (`UnmarshalSynSegment`, `CheckConfigValid` and `InitSnd`), and what the
negotiated `SEGMAX` means for the slots of sequence numbers.
-/

namespace AllJoyn.Ardp

open Lib.SeqNum Lib Wire Nat

/-! ### Slots -/

/-- The `size` sequence numbers from `start` on have slots of their own, and
the number behind `start` has the slot that the slot of `start` is linked to. -/
structure SlotsFollow (size : Nat) (slot : Seq → Nat) (next : Nat → Nat) (start : Seq) : Prop where
  distinct : ∀ i < size, ∀ j < size, slot (start + number i) = slot (start + number j) → i = j
  successor : slot (start + 1) = next (slot start)

theorem toNat_add_number (start : Seq) (count : Nat) :
    (start + number count).toNat = (start.toNat + count) % 2 ^ 32 := by
  rw [BitVec.toNat_add, toNat_number, add_mod_mod]

variable {size : Nat} {start : Seq} {window payload : Nat}

/-- Numbers that do not wrap, or that wrap at a multiple of the size, have the
remainders of their positions. -/
theorem slot_number {count : Nat} (hunbroken : size ∣ 2 ^ 32 ∨ start.toNat + count < 2 ^ 32) :
    (start + number count).toNat % size = (start.toNat + count) % size := by
  rw [toNat_add_number]
  rcases hunbroken with hdvd | hlt
  · exact mod_mod_of_dvd _ hdvd
  · rw [mod_eq_of_lt hlt]

theorem slotsFollow_of_unbroken (hpositive : 0 < size)
    (hunbroken : size ∣ 2 ^ 32 ∨ start.toNat + size ≤ 2 ^ 32) :
    SlotsFollow size (fun seq => seq.toNat % size) (Ring.next size) start where
  distinct := by
    intro i hi j hj hsame
    have hslot (k : Nat) (hk : k < size) :
        (start + number k).toNat % size = (start.toNat + k) % size :=
      slot_number (hunbroken.imp_right fun hle => by omega)
    rw [hslot i hi, hslot j hj, Ring.slot_eq_iff (by omega) (by omega)] at hsame
    omega
  successor := by
    have hone : size ∣ 2 ^ 32 ∨ start.toNat + 1 < 2 ^ 32 := by
      rcases hunbroken with hdvd | hle
      · exact .inl hdvd
      · rcases Nat.lt_or_ge (start.toNat + 1) (2 ^ 32) with hlt | hge
        · exact .inr hlt
        · exact .inl (by rw [show size = 1 by omega]; exact one_dvd _)
    change (start + number 1).toNat % size = Ring.next size (start.toNat % size)
    rw [slot_number hone, Ring.next_mod]

/-- Two numbers share a slot when the wrap cuts through the window and is at
no multiple of the size. -/
theorem slots_collide (hpositive : 0 < size) (hdvd : ¬size ∣ 2 ^ 32)
    (hwraps : 2 ^ 32 < start.toNat + size) :
    ∃ i < size, ∃ j < size, i ≠ j ∧
      (start + number i).toNat % size = (start + number j).toNat % size := by
  have hstart : start.toNat < 2 ^ 32 := start.isLt
  have hsmall : 2 ^ 32 % size < size := mod_lt _ hpositive
  have hdiv := div_add_mod (2 ^ 32) size
  -- the part of the window in front of the wrap against the remainder at the wrap
  rcases Nat.lt_or_ge (2 ^ 32 - start.toNat) (2 ^ 32 % size) with hshort | hlong
  · refine ⟨0, hpositive, 2 ^ 32 % size, hsmall, by omega, ?_⟩
    have hback : start.toNat =
        (start.toNat + 2 ^ 32 % size - 2 ^ 32) + size * (2 ^ 32 / size) := by omega
    have hwrapped : (start.toNat + 2 ^ 32 % size) % 2 ^ 32 =
        start.toNat + 2 ^ 32 % size - 2 ^ 32 := by omega
    rw [toNat_add_number, toNat_add_number, hwrapped, Nat.add_zero, mod_eq_of_lt hstart]
    nth_rewrite 1 [hback]
    exact add_mul_mod_self_left ..
  · refine ⟨2 ^ 32 - start.toNat - 2 ^ 32 % size, by omega, 2 ^ 32 - start.toNat, by omega,
      by omega, ?_⟩
    have hmultiple : start.toNat + (2 ^ 32 - start.toNat - 2 ^ 32 % size) =
        size * (2 ^ 32 / size) := by omega
    have hwrapped : start.toNat + (2 ^ 32 - start.toNat) = 2 ^ 32 := by omega
    have hbelow : size * (2 ^ 32 / size) % 2 ^ 32 = size * (2 ^ 32 / size) :=
      mod_eq_of_lt (by omega)
    rw [toNat_add_number, toNat_add_number, hmultiple, hwrapped, hbelow, mod_self,
      zero_mod, mul_mod_right]

theorem slotsFollow_iff (hpositive : 0 < size) (start : Seq) :
    SlotsFollow size (fun seq => seq.toNat % size) (Ring.next size) start ↔
      size ∣ 2 ^ 32 ∨ start.toNat + size ≤ 2 ^ 32 := by
  constructor
  · intro hfollow
    by_contra hbroken
    rw [not_or, not_le] at hbroken
    obtain ⟨i, hi, j, hj, hdiffer, hsame⟩ := slots_collide hpositive hbroken.1 hbroken.2
    exact hdiffer (hfollow.distinct i hi j hj hsame)
  · exact slotsFollow_of_unbroken hpositive

/-- Any `SEGMAX` consecutive numbers have slots of their own and follow the
links of the buffers exactly where they do not wrap, or `SEGMAX` divides the
size of the number space. -/
theorem slots_follow_iff (snd : Snd) (rcv : Rcv) (start : Seq) (hsnd : 0 < snd.SEGMAX)
    (hrcv : 0 < rcv.SEGMAX) :
    (SlotsFollow snd.SEGMAX snd.slot snd.next start ↔
        snd.SEGMAX ∣ 2 ^ 32 ∨ start.toNat + snd.SEGMAX ≤ 2 ^ 32) ∧
      (SlotsFollow rcv.SEGMAX rcv.slot rcv.next start ↔
        rcv.SEGMAX ∣ 2 ^ 32 ∨ start.toNat + rcv.SEGMAX ≤ 2 ^ 32) :=
  ⟨slotsFollow_iff hsnd start, slotsFollow_iff hrcv start⟩

/-- A send buffer as `memset` and `InitTimer` leave it. -/
def emptySndBuf : SndBuf := ⟨0, 0, 0, 0, 0, 0, false, []⟩

/-- A receive buffer that has never been used. -/
def emptyRcvBuf : RcvBuf := ⟨0, 0, 0, 0, 0, false, false, []⟩

/-- The send side of a connection whose numbers start with 0. -/
def newSnd (segmax : Nat) : Snd :=
  ⟨1, 1, 0, 0, 0, segmax, 0, 0, 1, segmax, segmax, fun _ => emptySndBuf⟩

/-- The receive side of a connection whose peer starts with 0. -/
def newRcv (segmax : Nat) : Rcv :=
  ⟨0, 0, 0, segmax, fun _ => emptyRcvBuf, ⟨fun _ => 0, fun _ => 0, 0, (segmax + 31) / 32⟩⟩

/-- In the middle of the number space the slots of 93 segments follow each
other. -/
theorem slots_follow_93 :
    SlotsFollow (newSnd 93).SEGMAX (newSnd 93).slot (newSnd 93).next 1000 ∧
      SlotsFollow (newRcv 93).SEGMAX (newRcv 93).slot (newRcv 93).next 1000 := by
  have hiff := slots_follow_iff (newSnd 93) (newRcv 93) 1000 (by decide) (by decide)
  exact ⟨hiff.1.mpr (.inr (by decide)), hiff.2.mpr (.inr (by decide))⟩

/-- At the end of the number space, the last number and the fourth one behind
the wrap share a slot, and the slot of 0 is not the one the slot of the last
number is linked to. -/
theorem slots_collide_93 :
    (newSnd 93).slot (0xffffffff + number 0) = (newSnd 93).slot (0xffffffff + number 4) ∧
      (newRcv 93).slot (0xffffffff + number 0) = (newRcv 93).slot (0xffffffff + number 4) ∧
      (newSnd 93).slot (0xffffffff + 1) ≠ (newSnd 93).next ((newSnd 93).slot 0xffffffff) ∧
      (newRcv 93).slot (0xffffffff + 1) ≠ (newRcv 93).next ((newRcv 93).slot 0xffffffff) ∧
      ¬SlotsFollow 93 (newSnd 93).slot (newSnd 93).next 0xffffffff ∧
      ¬SlotsFollow 93 (newRcv 93).slot (newRcv 93).next 0xffffffff := by
  refine ⟨by decide, by decide, by decide, by decide, fun hfollow => ?_, fun hfollow => ?_⟩
  · exact absurd hfollow.successor (by decide)
  · exact absurd hfollow.successor (by decide)

/-! ### The send side -/

/-- `ARDP_FIXED_HEADER_LEN`. -/
def fixedHeaderLen : Nat := 36

def udpHeaderSize : Nat := 8

/-- The words of an EACK mask for a window. -/
def ackMaskSize (window : Nat) : Nat := (window + 31) / 32

/-- The length of a header with so many words of EACK mask, in the eight bits
the code keeps of it. -/
def headerLen (words : Nat) : Nat := (fixedHeaderLen + words * 4) % 2 ^ 8

/-- The fields of a SYN header that `UnmarshalSynSegment` keeps. -/
structure SynHeader where
  simpleMode : Bool
  SEGMAX : BitVec 16
  SEGBMAX : BitVec 16
  DACKT : BitVec 32

/-- `UnmarshalSynSegment`, but for the ports and `snd.SEGBMAX`, which only
`InitSnd` reads. -/
def unmarshalSynSegment (syn : SynHeader) (seg : Seg) (conn : Conn) : Conn :=
  { conn with
    modeSimple := syn.simpleMode
    snd := { conn.snd with
      SEGMAX := syn.SEGMAX.toNat
      DACKT := syn.DACKT
      thinSEGMAX := syn.SEGMAX.toNat
      thinWindow := syn.SEGMAX.toNat }
    rcv := { conn.rcv with
      CUR := seg.SEQ
      IRS := seg.SEQ
      LCS := seg.SEQ }
    remoteMskSz := ackMaskSize syn.SEGMAX.toNat }

def checkConfigValid (segmax segbmax window : Nat) (isSimpleMode : Bool) : Bool :=
  let hlen := headerLen (if isSimpleMode then 0 else ackMaskSize window)
  let maxPayload := (segbmax + 2 ^ 32 - (udpHeaderSize + hlen)) % 2 ^ 32
  if segmax > maxWindowSize then false
  else if segbmax ≤ udpHeaderSize + hlen then false
  else if maxPayload * segmax % 2 ^ 32 < maxPacketLen then false
  else true

/-- Whether the two allocations of `InitSnd` succeed. -/
structure SndMemory where
  buffers : Bool
  headers : Bool

/-- The end of `InitSnd`: the send buffers are allocated. -/
def allocateSnd (memory : SndMemory) (conn : Conn) : QStatus × Conn :=
  let conn := { conn with window := conn.snd.SEGMAX }
  if !memory.buffers then (.outOfMemory, conn)
  else
    let conn := { conn with snd := { conn.snd with buf := fun _ => emptySndBuf } }
    if !memory.headers then (.outOfMemory, conn) else (.ok, conn)

/-- `maxDlen`: what the headers leave of a segment, in sixteen bits. -/
def payloadLen (segbmax window : Nat) : Nat :=
  (segbmax + 2 ^ 16 - (udpHeaderSize + headerLen (ackMaskSize window))) % 2 ^ 16

/-- In simple mode `SEGMAX` is set for the largest message. -/
def localSegmax (conn : Conn) (maxDlen : Nat) : Nat :=
  if conn.modeSimple then (maxPacketLen + maxDlen - 1) / maxDlen % 2 ^ 16 else conn.snd.SEGMAX

/-- `InitSnd`; none where it divides by zero. -/
def initSnd (memory : SndMemory) (segbmax : Nat) (conn : Conn) : Option (QStatus × Conn) :=
  let maxDlen := payloadLen segbmax conn.rcv.SEGMAX
  if conn.modeSimple ∧ maxDlen = 0 then none
  else
    let fixedWords := ackMaskSize conn.rcv.SEGMAX
    let conn := { conn with
      rcv := { conn.rcv with eack := { conn.rcv.eack with fixedWords := fixedWords } }
      snd := { conn.snd with maxDlen := maxDlen, SEGMAX := localSegmax conn maxDlen } }
    if !checkConfigValid conn.snd.SEGMAX segbmax conn.rcv.SEGMAX conn.modeSimple then
      some (.fail, conn)
    else some (allocateSnd memory conn)

/-- Every message fits into the send window. -/
structure Snd.Fits (snd : Snd) : Prop where
  payload : 0 < snd.maxDlen
  window : 1 ≤ snd.SEGMAX ∧ snd.SEGMAX ≤ maxWindowSize
  message : maxPacketLen ≤ snd.SEGMAX * snd.maxDlen

theorem headerLen_lt (words : Nat) : headerLen words < 2 ^ 8 := mod_lt _ (by decide)

theorem checkConfigValid_accepts {segmax segbmax : Nat} {isSimpleMode : Bool}
    (hsegbmax : segbmax < 2 ^ 16)
    (hvalid : checkConfigValid segmax segbmax window isSimpleMode = true) :
    segmax ≤ maxWindowSize ∧ ∃ payload, 0 < payload ∧
      segbmax = payload +
        (udpHeaderSize + headerLen (if isSimpleMode then 0 else ackMaskSize window)) ∧
      maxPacketLen ≤ payload * segmax := by
  unfold checkConfigValid at hvalid
  generalize headerLen (if isSimpleMode then 0 else ackMaskSize window) = hlen at hvalid ⊢
  by_cases hsegmax : segmax > maxWindowSize
  · simp [hsegmax] at hvalid
  by_cases hsmall : segbmax ≤ udpHeaderSize + hlen
  · simp [hsmall] at hvalid
  have hpayload : (segbmax + 2 ^ 32 - (udpHeaderSize + hlen)) % 2 ^ 32 =
      segbmax - (udpHeaderSize + hlen) := by omega
  have hproduct : (segbmax - (udpHeaderSize + hlen)) * segmax ≤ 2 ^ 16 * maxWindowSize :=
    Nat.mul_le_mul (by omega) (by omega)
  have hroom : ¬(segbmax - (udpHeaderSize + hlen)) * segmax < maxPacketLen := by
    rw [← mod_eq_of_lt (lt_of_le_of_lt hproduct (by decide : _ < 2 ^ 32))]
    intro hless
    simp only [hpayload, if_neg hsegmax, if_neg hsmall, if_pos hless] at hvalid
    exact absurd hvalid (by decide)
  exact ⟨by omega, segbmax - (udpHeaderSize + hlen), by omega, by omega, by omega⟩

/-- The number of segments that a packet of the greatest length fills is kept
in sixteen bits; it survives where a window can hold it. -/
theorem segments_hold (hpositive : 0 < payload)
    (hsegments : (maxPacketLen + payload - 1) / payload % 2 ^ 16 ≤ maxWindowSize) :
    maxPacketLen ≤ (maxPacketLen + payload - 1) / payload % 2 ^ 16 * payload := by
  have hlimit : maxWindowSize = 448 := rfl
  have hpacket : maxPacketLen = 135168 := rfl
  have hwide : 3 ≤ payload := by
    by_contra hnarrow
    have hcases : payload = 1 ∨ payload = 2 := by omega
    rcases hcases with rfl | rfl <;> rw [hpacket] at hsegments <;> omega
  have hdiv := div_add_mod (maxPacketLen + payload - 1) payload
  have hmod := mod_lt (maxPacketLen + payload - 1) hpositive
  have hkept : (maxPacketLen + payload - 1) / payload < 2 ^ 16 := by
    rw [Nat.div_lt_iff_lt_mul hpositive]
    omega
  rw [mod_eq_of_lt hkept, Nat.mul_comm]
  omega

/-- With a payload that has wrapped below zero the packet fills three segments,
and the segments of the peer are too short for that. -/
theorem underflow_rejected {segbmax hlen : Nat} (hhlen : hlen < 2 ^ 8)
    (hshort : segbmax < udpHeaderSize + hlen) (hpayload : payload ≤ segbmax) :
    payload * ((maxPacketLen + (segbmax + 2 ^ 16 - (udpHeaderSize + hlen)) - 1) /
      (segbmax + 2 ^ 16 - (udpHeaderSize + hlen)) % 2 ^ 16) < maxPacketLen := by
  have hheader : udpHeaderSize = 8 := rfl
  have hpacket : maxPacketLen = 135168 := rfl
  have hfew : (maxPacketLen + (segbmax + 2 ^ 16 - (udpHeaderSize + hlen)) - 1) /
      (segbmax + 2 ^ 16 - (udpHeaderSize + hlen)) < 4 := by
    rw [Nat.div_lt_iff_lt_mul (by omega)]
    omega
  calc payload * ((maxPacketLen + (segbmax + 2 ^ 16 - (udpHeaderSize + hlen)) - 1) /
        (segbmax + 2 ^ 16 - (udpHeaderSize + hlen)) % 2 ^ 16)
      ≤ 2 ^ 9 * 4 := Nat.mul_le_mul (by omega) ((mod_le _ _).trans hfew.le)
    _ < maxPacketLen := by decide

section InitSnd

variable {memory : SndMemory} {segbmax : Nat} {conn conn' : Conn}

theorem payloadLen_eq_zero_iff (hsegbmax : segbmax < 2 ^ 16) :
    payloadLen segbmax window = 0 ↔ segbmax = udpHeaderSize + headerLen (ackMaskSize window) := by
  have hheader : udpHeaderSize = 8 := rfl
  have hhlen := headerLen_lt (ackMaskSize window)
  unfold payloadLen
  omega

theorem initSnd_eq_none_iff : initSnd memory segbmax conn = none ↔
    conn.modeSimple = true ∧ payloadLen segbmax conn.rcv.SEGMAX = 0 := by
  unfold initSnd
  constructor
  · intro hnone
    by_contra hnonzero
    simp only [if_neg hnonzero] at hnone
    split at hnone <;> cases hnone
  · intro hboth
    simp only [if_pos hboth]

theorem allocateSnd_snd (memory : SndMemory) (conn : Conn) :
    (allocateSnd memory conn).2.snd.maxDlen = conn.snd.maxDlen ∧
      (allocateSnd memory conn).2.snd.SEGMAX = conn.snd.SEGMAX := by
  unfold allocateSnd
  split <;> [skip; split] <;> exact ⟨rfl, rfl⟩

theorem initSnd_ok (hok : initSnd memory segbmax conn = some (.ok, conn')) :
    conn'.snd.maxDlen = payloadLen segbmax conn.rcv.SEGMAX ∧
      conn'.snd.SEGMAX = localSegmax conn (payloadLen segbmax conn.rcv.SEGMAX) ∧
      checkConfigValid conn'.snd.SEGMAX segbmax conn.rcv.SEGMAX conn.modeSimple = true := by
  unfold initSnd at hok
  simp only at hok
  split at hok
  next => cases hok
  next =>
    split at hok
    next => cases hok
    next hvalid =>
      have hset := allocateSnd_snd memory { conn with
        rcv := { conn.rcv with eack := { conn.rcv.eack with
          fixedWords := ackMaskSize conn.rcv.SEGMAX } }
        snd := { conn.snd with
          maxDlen := payloadLen segbmax conn.rcv.SEGMAX
          SEGMAX := localSegmax conn (payloadLen segbmax conn.rcv.SEGMAX) } }
      rw [Option.some.inj hok] at hset
      exact ⟨hset.1, hset.2, by rw [hset.2]; simpa using hvalid⟩

theorem initSnd_ok_fits (hsegbmax : segbmax < 2 ^ 16)
    (hok : initSnd memory segbmax conn = some (.ok, conn')) : conn'.snd.Fits := by
  obtain ⟨hmaxDlen, hsegmax, hvalid⟩ := initSnd_ok hok
  have hhlen := headerLen_lt (ackMaskSize conn.rcv.SEGMAX)
  obtain ⟨hlimit, payload, hpositive, hpayload, hproduct⟩ := checkConfigValid_accepts hsegbmax hvalid
  have hsome : 1 ≤ conn'.snd.SEGMAX := by
    by_contra hnone
    rw [show conn'.snd.SEGMAX = 0 by omega, Nat.mul_zero] at hproduct
    exact absurd hproduct (by decide)
  cases hmode : conn.modeSimple with
  | false =>
    simp only [hmode, Bool.false_eq_true, if_false] at hpayload
    have hsame : conn'.snd.maxDlen = payload := by
      rw [hmaxDlen, payloadLen]
      omega
    exact ⟨by omega, ⟨hsome, hlimit⟩, by rw [hsame, Nat.mul_comm]; exact hproduct⟩
  | true =>
    rw [localSegmax, hmode, if_pos rfl] at hsegmax
    have hnonzero : payloadLen segbmax conn.rcv.SEGMAX ≠ 0 := by
      intro hzero
      rw [initSnd_eq_none_iff.mpr ⟨hmode, hzero⟩] at hok
      cases hok
    rcases Nat.lt_or_ge segbmax
      (udpHeaderSize + headerLen (ackMaskSize conn.rcv.SEGMAX)) with hshort | hlong
    · have hwrapped : payloadLen segbmax conn.rcv.SEGMAX =
          segbmax + 2 ^ 16 - (udpHeaderSize + headerLen (ackMaskSize conn.rcv.SEGMAX)) := by
        unfold payloadLen
        omega
      have hrejected := underflow_rejected hhlen hshort (by omega : payload ≤ segbmax)
      rw [← hwrapped, ← hsegmax] at hrejected
      omega
    · rw [hsegmax] at hlimit
      have hmessage := segments_hold (Nat.pos_of_ne_zero hnonzero) hlimit
      rw [← hsegmax, ← hmaxDlen] at hmessage
      rw [← hsegmax] at hlimit
      exact ⟨by omega, ⟨hsome, hlimit⟩, hmessage⟩

end InitSnd

/-- After a SYN segment of any content `InitSnd` does not divide by zero, and
leaves a window for every message when it succeeds, except in simple mode with
segments that hold the headers exactly. -/
theorem initSnd_safe_iff (memory : SndMemory) (syn : SynHeader) (seg : Seg) (conn : Conn) :
    (∃ status conn', initSnd memory syn.SEGBMAX.toNat (unmarshalSynSegment syn seg conn) =
        some (status, conn') ∧ (status = .ok → conn'.snd.Fits)) ↔
      ¬(syn.simpleMode = true ∧
        syn.SEGBMAX.toNat = udpHeaderSize + headerLen (ackMaskSize conn.rcv.SEGMAX)) := by
  have hsegbmax : syn.SEGBMAX.toNat < 2 ^ 16 := syn.SEGBMAX.isLt
  have hnone : initSnd memory syn.SEGBMAX.toNat (unmarshalSynSegment syn seg conn) = none ↔
      syn.simpleMode = true ∧
        syn.SEGBMAX.toNat = udpHeaderSize + headerLen (ackMaskSize conn.rcv.SEGMAX) := by
    rw [initSnd_eq_none_iff, payloadLen_eq_zero_iff hsegbmax]
    rfl
  rw [← hnone]
  constructor
  · rintro ⟨status, conn', hresult, -⟩ hzero
    rw [hzero] at hresult
    cases hresult
  · intro hdefined
    obtain ⟨⟨status, conn'⟩, hresult⟩ := Option.ne_none_iff_exists'.mp hdefined
    refine ⟨status, conn', hresult, ?_⟩
    rintro rfl
    exact initSnd_ok_fits hsegbmax hresult

/-- A SYN segment in simple mode whose segments have room for the headers with
the mask of 93 segments and for nothing else. -/
theorem initSnd_divides_by_zero :
    let conn : Conn := ⟨.synSent, false, newSnd 93, newRcv 93, 0, 0, false, false⟩
    let seg : Seg := ⟨true, true, false, false, false, 7, 0, 7, 7, 0, 0, 0, [], []⟩
    initSnd ⟨true, true⟩ 56 (unmarshalSynSegment ⟨true, 93, 56, 100⟩ seg conn) = none := by
  decide

end AllJoyn.Ardp
