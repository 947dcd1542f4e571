import AllJoyn.Message.Fields

/-!
The first 16 bytes of a message, and `_Message::InterpretHeader`, which turns
their words into the byte order of the host and derives the sizes of the packet
and of its buffer from them.
-/

namespace AllJoyn.Msg

open Lib.Bytes Wire Nat

variable {host : ByteOrder}

inductive ByteOrder where
  | little
  | big
  deriving DecidableEq, Repr

open ByteOrder

/-- `ALLJOYN_LITTLE_ENDIAN` and `ALLJOYN_BIG_ENDIAN`. -/
def ByteOrder.char : ByteOrder → UInt8
  | .little => 108
  | .big => 66

/-- Whether the bytes of a word stand the other way round than on a
little-endian host. -/
def ByteOrder.swap : ByteOrder → Bool
  | .little => false
  | .big => true

structure MessageHeader where
  endian : UInt8
  msgType : UInt8
  flags : UInt8
  majorVersion : UInt8
  bodyLen : UInt32
  serialNum : UInt32
  headerLen : UInt32
  deriving DecidableEq, Repr

open MessageHeader

/-- `sizeof(MessageHeader)`. -/
def headerSize : Nat := 16

/-- A word in memory, as the host reads it. -/
def word32 (host : ByteOrder) (bytes : List UInt8) : UInt32 :=
  UInt32.ofNat (wordValue host.swap (bytes.take 4))

/-- The header that lies in memory. -/
def MessageHeader.ofBytes (host : ByteOrder) (bytes : List UInt8) : MessageHeader where
  endian := bytes.getD 0 0
  msgType := bytes.getD 1 0
  flags := bytes.getD 2 0
  majorVersion := bytes.getD 3 0
  bodyLen := word32 host (bytes.drop 4)
  serialNum := word32 host (bytes.drop 8)
  headerLen := word32 host (bytes.drop 12)

/-- The header as it is copied into a buffer. -/
def MessageHeader.bytes (host : ByteOrder) (header : MessageHeader) : List UInt8 :=
  [header.endian, header.msgType, header.flags, header.majorVersion] ++
    (wordBytes host.swap 4 header.bodyLen.toNat ++
      (wordBytes host.swap 4 header.serialNum.toNat ++
        wordBytes host.swap 4 header.headerLen.toNat))

@[simp]
theorem MessageHeader.bytes_length (host : ByteOrder) (header : MessageHeader) :
    (header.bytes host).length = headerSize := by
  simp [bytes, headerSize]

def endianSwap32 (value : UInt32) : UInt32 :=
  UInt32.ofNat (wordValue true (wordBytes false 4 value.toNat))

def MessageHeader.swapWords (header : MessageHeader) : MessageHeader :=
  { header with
    bodyLen := endianSwap32 header.bodyLen
    serialNum := endianSwap32 header.serialNum
    headerLen := endianSwap32 header.headerLen }

def maxHeaderLen : Nat := 1024 * 64

/-- `(n + 7) & ~7` for a 32-bit number. -/
def roundUp32 (n : UInt32) : UInt32 := (n + 7) &&& ~~~7

/-- The next multiple of 8. -/
def roundUp8 (n : Nat) : Nat := (n + 7) / 8 * 8

/-- What `InterpretHeader` leaves in the message: the header in the byte order
of the host, and the header as it stands at the start of the buffer. -/
structure Interpreted where
  msgHeader : MessageHeader
  endianSwap : Bool
  pktSize : Nat
  header : List UInt8
  deriving DecidableEq, Repr

/-- Padding behind the packet lets the parser read a few bytes too far. -/
def Interpreted.bufSize (info : Interpreted) : Nat := headerSize + roundUp8 info.pktSize + 8

/-- The header with its words in the other byte order, if the message has
another byte order than the host. -/
def MessageHeader.convert (host : ByteOrder) (header : MessageHeader) : MessageHeader :=
  if header.endian ≠ host.char then header.swapWords else header

/-- The size of the packet behind the 16 bytes, a 32-bit sum that may wrap. -/
def MessageHeader.pktSize (header : MessageHeader) : Nat :=
  (roundUp32 header.headerLen + header.bodyLen).toNat

def interpretHeader (host : ByteOrder) (raw : MessageHeader) : Except QStatus Interpreted :=
  if raw.endian ≠ host.char ∧ raw.endian ≠ ByteOrder.little.char ∧
      raw.endian ≠ ByteOrder.big.char then
    .error .busBadHeaderField
  else
    let header := raw.convert host
    if header.headerLen.toNat > maxHeaderLen then .error .busBadHeaderLen
    else if header.pktSize > maxPacketLen ∨ header.bodyLen.toNat > maxPacketLen then
      .error .busBadBodyLen
    else
      .ok ⟨header, raw.endian ≠ host.char, header.pktSize, (header.convert host).bytes host⟩

/-! ### What the bytes declare -/

/-- A word of the header in the byte order that the first byte names. -/
def declaredWord (bytes : List UInt8) (offset : Nat) : Nat :=
  wordValue (bytes.headD 0 = ByteOrder.big.char) ((bytes.drop offset).take 4)

def declaredBodyLen (bytes : List UInt8) : Nat := declaredWord bytes 4

def declaredHeaderLen (bytes : List UInt8) : Nat := declaredWord bytes 12

/-- The length of the whole message that the first 16 bytes declare. -/
def declaredLen (bytes : List UInt8) : Nat :=
  headerSize + roundUp8 (declaredHeaderLen bytes) + declaredBodyLen bytes

variable {bytes : List UInt8}

theorem toNat_word32 (hlength : bytes.length = 4) :
    (word32 host bytes).toNat = wordValue host.swap bytes := by
  have hlt := wordValue_lt host.swap bytes
  rw [hlength] at hlt
  rw [word32, List.take_of_length_le hlength.le, UInt32.toNat_ofNat_of_lt' hlt]

theorem wordBytes_word32 (hlength : bytes.length = 4) :
    wordBytes host.swap 4 (word32 host bytes).toNat = bytes := by
  have hbytes := wordBytes_wordValue host.swap bytes
  rwa [hlength, ← toNat_word32 hlength] at hbytes

theorem endianSwap32_word32 (hlength : bytes.length = 4) :
    endianSwap32 (word32 host bytes) = UInt32.ofNat (wordValue (!host.swap) bytes) := by
  have hbytes : ∀ bytes : List UInt8, bytes.length = 4 → leBytes 4 (leValue bytes) = bytes := by
    intro bytes hlength
    rw [← hlength, leBytes_leValue]
  rw [endianSwap32, toNat_word32 hlength]
  cases host with
  | little => simp [swap, wordValue, wordBytes, hbytes bytes hlength]
  | big =>
    simp [swap, wordValue, wordBytes, hbytes bytes.reverse (by simpa using hlength)]

theorem endianSwap32_endianSwap32 (value : UInt32) : endianSwap32 (endianSwap32 value) = value := by
  have hvalue : value = word32 .little (leBytes 4 value.toNat) := by
    apply UInt32.toNat_inj.mp
    rw [toNat_word32 (by simp)]
    simp [swap, wordValue, leValue_leBytes]
  have hswapped : endianSwap32 value = word32 .big (leBytes 4 value.toNat) := by
    conv_lhs => rw [hvalue]
    rw [endianSwap32_word32 (by simp)]
    rfl
  rw [hswapped, endianSwap32_word32 (by simp)]
  conv_rhs => rw [hvalue]
  rfl

theorem MessageHeader.convert_convert (host : ByteOrder) (header : MessageHeader) :
    (header.convert host).convert host = header := by
  unfold convert
  split
  · next hother =>
      rw [if_pos (show header.swapWords.endian ≠ host.char from hother)]
      simp [swapWords, endianSwap32_endianSwap32]
  · next hsame => rfl

theorem header_split (hlength : bytes.length = headerSize) :
    ∃ endian msgType flags majorVersion bodyLen serialNum headerLen,
      bytes = [endian, msgType, flags, majorVersion] ++ (bodyLen ++ (serialNum ++ headerLen)) ∧
        bodyLen.length = 4 ∧ serialNum.length = 4 ∧ headerLen.length = 4 := by
  unfold headerSize at hlength
  match bytes, hlength with
  | endian :: msgType :: flags :: majorVersion :: words, hlength =>
    simp only [List.length_cons] at hlength
    refine ⟨endian, msgType, flags, majorVersion, words.take 4, (words.drop 4).take 4,
      words.drop 8, ?_, ?_, ?_, ?_⟩
    · have htail : (words.drop 4).take 4 ++ words.drop 8 = words.drop 4 := by
        rw [← List.drop_drop (i := 4) (j := 4), List.take_append_drop]
      rw [htail, List.take_append_drop]
      rfl
    all_goals simp; omega

variable {bytes : List UInt8} {info : Interpreted}

theorem MessageHeader.bytes_ofBytes (host : ByteOrder) (hlength : bytes.length = headerSize) :
    (ofBytes host bytes).bytes host = bytes := by
  obtain ⟨endian, msgType, flags, majorVersion, bodyLen, serialNum, headerLen, rfl, hbody, hserial,
    hheader⟩ := header_split hlength
  have hfirst : word32 host (bodyLen ++ (serialNum ++ headerLen)) = word32 host bodyLen := by
    simp [word32, List.take_append_of_le_length hbody.ge]
  have hsecond : word32 host (serialNum ++ headerLen) = word32 host serialNum := by
    simp [word32, List.take_append_of_le_length hserial.ge]
  have hdrop : (bodyLen ++ (serialNum ++ headerLen)).drop 4 = serialNum ++ headerLen := by
    rw [← hbody, List.drop_left]
  have hdrop' : (bodyLen ++ (serialNum ++ headerLen)).drop 8 = headerLen := by
    rw [← List.drop_drop (i := 4) (j := 4), hdrop, ← hserial, List.drop_left]
  simp [bytes, ofBytes, hfirst, hsecond, hdrop, hdrop',
    wordBytes_word32 hbody, wordBytes_word32 hserial, wordBytes_word32 hheader]

theorem and_shiftLeft (value mask width : Nat) :
    value &&& mask <<< width = (value >>> width &&& mask) <<< width := by
  apply eq_of_testBit_eq
  intro bit
  by_cases hbit : width ≤ bit
  · simp [hbit]
  · simp [hbit]

theorem roundUp32_toNat {n : UInt32} (hn : n.toNat ≤ maxHeaderLen) :
    (roundUp32 n).toNat = roundUp8 n.toNat := by
  unfold maxHeaderLen at hn
  have hmask : (~~~(7 : UInt32)).toNat = 2 ^ 32 - 1 - 7 := rfl
  have hsum : (n + 7).toNat = n.toNat + 7 := by
    exact mod_eq_of_lt (by simp; omega)
  have hshift : 2 ^ 32 - 1 - 7 = (2 ^ 29 - 1) <<< 3 := rfl
  have hlt : (n.toNat + 7) / 2 ^ 3 < 2 ^ 29 := by omega
  rw [roundUp32, UInt32.toNat_and, hmask, hsum, hshift, and_shiftLeft,
    and_two_pow_sub_one_eq_mod, shiftRight_eq_div_pow, mod_eq_of_lt hlt,
    shiftLeft_eq]
  rfl

/-- The sum of the lengths does not wrap below the limits that are checked. -/
theorem interpretHeader_pktSize {raw : MessageHeader} (hok : interpretHeader host raw = .ok info) :
    info.pktSize = roundUp8 info.msgHeader.headerLen.toNat + info.msgHeader.bodyLen.toNat := by
  simp only [interpretHeader] at hok
  split at hok
  · cases hok
  split at hok
  · cases hok
  next hheaderLen =>
  split at hok
  · cases hok
  next hsize =>
  cases hok
  have hround := roundUp32_toNat (Nat.not_lt.mp hheaderLen)
  rw [pktSize, UInt32.toNat_add, hround]
  apply mod_eq_of_lt
  unfold maxHeaderLen at hheaderLen
  unfold maxPacketLen maxArrayLen at hsize
  unfold roundUp8
  omega

/-- What an accepted header tells: the buffer starts with the bytes as they
came, and the sizes are those that the bytes declare. -/
structure Declares (bytes : List UInt8) (info : Interpreted) : Prop where
  header_eq : info.header = bytes
  headerLen_eq : info.msgHeader.headerLen.toNat = declaredHeaderLen bytes
  bodyLen_eq : info.msgHeader.bodyLen.toNat = declaredBodyLen bytes
  size_eq : headerSize + info.pktSize = declaredLen bytes
  msgType_eq : info.msgHeader.msgType = bytes.getD 1 0
  flags_eq : info.msgHeader.flags = bytes.getD 2 0
  headerLen_le : info.msgHeader.headerLen.toNat ≤ maxHeaderLen

theorem declaredWord_eq (host : ByteOrder) {offset : Nat} (hlength : offset + 4 ≤ bytes.length)
    (horder : bytes.getD 0 0 = little.char ∨ bytes.getD 0 0 = big.char) :
    (if bytes.getD 0 0 ≠ host.char then endianSwap32 (word32 host (bytes.drop offset))
      else word32 host (bytes.drop offset)).toNat = declaredWord bytes offset := by
  have hfour : ((bytes.drop offset).take 4).length = 4 := by simp; omega
  have htake : word32 host (bytes.drop offset) = word32 host ((bytes.drop offset).take 4) := by
    rw [word32, word32, List.take_take, min_self]
  have hlt : ∀ swap, wordValue swap ((bytes.drop offset).take 4) < 2 ^ 32 := by
    intro swap
    have hlt := wordValue_lt swap ((bytes.drop offset).take 4)
    rwa [hfour] at hlt
  rw [htake, declaredWord, List.headD_eq_getD]
  split
  · next hother =>
      rw [endianSwap32_word32 hfour]
      cases host <;> rcases horder with horder | horder <;>
        simp_all [swap]
  · next hsame =>
      rw [toNat_word32 hfour]
      cases host <;> rcases horder with horder | horder <;>
        simp_all [char, swap]

theorem interpretHeader_declares (hlength : bytes.length = headerSize)
    (hok : interpretHeader host (.ofBytes host bytes) = .ok info) : Declares bytes info := by
  have hpkt := interpretHeader_pktSize hok
  simp only [interpretHeader] at hok
  split at hok
  · cases hok
  next hvalid =>
  split at hok
  · cases hok
  next hheaderLen =>
  split at hok
  · cases hok
  next hsize =>
  cases hok
  have horder : bytes.getD 0 0 = little.char ∨ bytes.getD 0 0 = big.char := by
    by_contra hnone
    push Not at hnone
    cases host
    · exact hvalid ⟨hnone.1, hnone⟩
    · exact hvalid ⟨hnone.2, hnone⟩
  have hheader : ((ofBytes host bytes).convert host).headerLen.toNat =
      declaredHeaderLen bytes := by
    rw [declaredHeaderLen, ← declaredWord_eq host hlength.ge horder, convert,
      apply_ite headerLen]
    rfl
  have hbody : ((ofBytes host bytes).convert host).bodyLen.toNat =
      declaredBodyLen bytes := by
    have hfits : 4 + 4 ≤ bytes.length := by rw [hlength]; decide
    rw [declaredBodyLen, ← declaredWord_eq host hfits horder, convert,
      apply_ite bodyLen]
    rfl
  refine ⟨?_, hheader, hbody, ?_, ?_, ?_, Nat.not_lt.mp hheaderLen⟩
  · rw [convert_convert, bytes_ofBytes host hlength]
  · rw [hpkt, hheader, hbody, declaredLen, Nat.add_assoc]
  · rw [convert, apply_ite msgType]
    exact ite_self _
  · rw [convert, apply_ite flags]
    exact ite_self _

end AllJoyn.Msg
