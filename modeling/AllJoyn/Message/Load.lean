import AllJoyn.Message.Header

/-!
`_Message::LoadBytes`: a message is taken from a buffer in memory. The first 16
bytes decide how large a buffer is allocated, and the caller how many bytes are
copied into it.
-/

namespace AllJoyn.Msg

open Lib.Bytes Wire

variable {mem heap buf : Nat → UInt8} {pos count i : Nat} {host : ByteOrder} {buflen : UInt64}

/-- Memory with `count` bytes copied to it from `pos` on. -/
def copyTo (mem : Nat → UInt8) (pos count : Nat) (source : Nat → UInt8) : Nat → UInt8 :=
  fun i => if pos ≤ i ∧ i < pos + count then source (i - pos) else mem i

variable {source : Nat → UInt8} {loaded : Loaded}

theorem copyTo_inside (hi : i < count) : copyTo mem pos count source (pos + i) = source i := by
  rw [copyTo, if_pos ⟨Nat.le_add_right pos i, by omega⟩, Nat.add_sub_cancel_left]

theorem copyTo_outside (hi : i < pos ∨ pos + count ≤ i) :
    copyTo mem pos count source i = mem i := by
  rw [copyTo, if_neg]
  omega

/-- A loaded message: the memory from the start of its buffer on, and the
places and lengths of the stores that were made to it. -/
structure Loaded where
  info : Interpreted
  mem : Nat → UInt8
  stores : List (Nat × Nat)

/-- The message buffer, without the padding at its end. -/
def Loaded.message (loaded : Loaded) : List UInt8 :=
  read loaded.mem 0 (headerSize + loaded.info.pktSize)

/-- The stores once the header is interpreted: the header and the padding by
`InterpretHeader`, then the bytes of the caller. The number of bytes to copy is
a `size_t`; `heap` is what the memory held before. -/
def storeMessage (heap buf : Nat → UInt8) (buflen : UInt64) (info : Interpreted) : Loaded :=
  let eod := headerSize + info.pktSize
  let count := (buflen - 16).toNat
  let mem := copyTo heap 0 headerSize fun i => info.header.getD i 0
  let mem := copyTo mem eod (info.bufSize - eod) fun _ => 0
  let mem := copyTo mem headerSize count fun i => buf (headerSize + i)
  ⟨info, mem, [(0, headerSize), (eod, info.bufSize - eod), (headerSize, count)]⟩

def loadBytes (host : ByteOrder) (heap buf : Nat → UInt8) (buflen : UInt64) :
    Except QStatus Loaded :=
  (interpretHeader host (.ofBytes host (read buf 0 headerSize))).map (storeMessage heap buf buflen)

/-- The loaded message is what was given, it has the declared length, and all
stores were made inside of the allocated buffer. -/
structure Loaded.Faithful (loaded : Loaded) (given : List UInt8) : Prop where
  message_eq : loaded.message = given
  length_eq : loaded.message.length = declaredLen (given.take headerSize)
  stores_le : ∀ store ∈ loaded.stores, store.1 + store.2 ≤ loaded.info.bufSize

/-- `InterpretHeader` takes these 16 bytes. -/
def acceptsHeader (host : ByteOrder) (bytes : List UInt8) : Bool :=
  (interpretHeader host (.ofBytes host bytes)).isOk

theorem read_getD (hi : i < count) : (read mem pos count).getD i 0 = mem (pos + i) := by
  induction count generalizing pos i with
  | zero => omega
  | succ count ih =>
    cases i with
    | zero => rfl
    | succ i =>
      rw [Lib.Bytes.read, List.getD_cons_succ, ih (by omega)]
      congr 1
      omega

theorem Interpreted.eod_le_bufSize (info : Interpreted) :
    headerSize + info.pktSize ≤ info.bufSize := by
  unfold Interpreted.bufSize roundUp8
  omega

theorem loadBytes_eq_ok (hok : loadBytes host heap buf buflen = .ok loaded) :
    ∃ info, interpretHeader host (.ofBytes host (read buf 0 headerSize)) = .ok info ∧
      loaded = storeMessage heap buf buflen info := by
  unfold loadBytes at hok
  cases hinfo : interpretHeader host (.ofBytes host (read buf 0 headerSize)) with
  | error status =>
    rw [hinfo] at hok
    cases hok
  | ok info =>
    rw [hinfo] at hok
    cases hok
    exact ⟨info, rfl, rfl⟩

/-- When the copy ends where the packet ends, the message is what was given. -/
theorem storeMessage_message {info : Interpreted} (hheader : info.header = read buf 0 headerSize)
    (hcount : (buflen - 16).toNat = info.pktSize) :
    (storeMessage heap buf buflen info).message = read buf 0 (headerSize + info.pktSize) := by
  apply read_congr
  intro i hi
  change i < headerSize + info.pktSize at hi
  rw [Nat.zero_add]
  simp only [storeMessage]
  rcases Nat.lt_or_ge i headerSize with hfirst | hbody
  · -- the header is stored first and not touched again
    rw [copyTo_outside (.inl hfirst), copyTo_outside (.inl (by omega)), copyTo,
      if_pos ⟨Nat.zero_le i, by omega⟩, Nat.sub_zero, hheader, read_getD hfirst, Nat.zero_add]
  · obtain ⟨offset, rfl⟩ := Nat.exists_eq_add_of_le hbody
    rw [copyTo_inside (by omega)]

/-- With the declared length the copy ends where the packet ends. -/
theorem loadBytes_faithful (hlength : buflen.toNat = declaredLen (read buf 0 headerSize))
    (hok : loadBytes host heap buf buflen = .ok loaded) :
    loaded.Faithful (read buf 0 buflen.toNat) := by
  obtain ⟨info, hinfo, rfl⟩ := loadBytes_eq_ok hok
  have hdeclares := interpretHeader_declares (read_length buf 0 headerSize) hinfo
  have hsize : buflen.toNat = headerSize + info.pktSize := by
    rw [hlength, hdeclares.size_eq]
  have hcount : (buflen - 16).toNat = info.pktSize := by
    have hle : (16 : UInt64) ≤ buflen := by
      rw [UInt64.le_iff_toNat_le, hsize]
      exact Nat.le_add_right 16 info.pktSize
    rw [UInt64.toNat_sub_of_le _ _ hle, hsize]
    exact Nat.add_sub_cancel_left headerSize info.pktSize
  have heod := info.eod_le_bufSize
  have htake : (read buf 0 buflen.toNat).take headerSize = read buf 0 headerSize := by
    rw [hsize, read_add, List.take_left' (read_length buf 0 headerSize)]
  refine ⟨?_, ?_, ?_⟩
  · rw [storeMessage_message hdeclares.header_eq hcount, hsize]
  · rw [storeMessage_message hdeclares.header_eq hcount, read_length, htake, hdeclares.size_eq]
  · intro store hstore
    simp only [storeMessage, List.mem_cons, List.not_mem_nil, or_false] at hstore
    rcases hstore with rfl | rfl | rfl
    · exact (Nat.le_add_right _ _).trans ((Nat.zero_add headerSize).symm ▸ heod)
    · exact (Nat.add_sub_of_le heod).le
    · exact hcount.symm ▸ heod

theorem loadBytes_of_accepts (heap buf : Nat → UInt8) (buflen : UInt64)
    (haccepts : acceptsHeader host (read buf 0 headerSize) = true) :
    ∃ loaded, loadBytes host heap buf buflen = .ok loaded ∧
      headerSize + loaded.info.pktSize = declaredLen (read buf 0 headerSize) := by
  unfold acceptsHeader at haccepts
  cases hinfo : interpretHeader host (.ofBytes host (read buf 0 headerSize)) with
  | error status =>
    rw [hinfo] at haccepts
    cases haccepts
  | ok info =>
    have hdeclares := interpretHeader_declares (read_length buf 0 headerSize) hinfo
    refine ⟨storeMessage heap buf buflen info, ?_, hdeclares.size_eq⟩
    rw [loadBytes, hinfo]
    rfl

/-- A loaded message is faithful exactly if the caller passes as many bytes as
the header declares. -/
theorem loadBytes_faithful_iff (host : ByteOrder) (heap buf : Nat → UInt8) (buflen : UInt64) :
    (∀ loaded, loadBytes host heap buf buflen = .ok loaded →
      loaded.Faithful (read buf 0 buflen.toNat)) ↔
      acceptsHeader host (read buf 0 headerSize) = false ∨
        buflen.toNat = declaredLen (read buf 0 headerSize) := by
  constructor
  · intro hfaithful
    cases haccepts : acceptsHeader host (read buf 0 headerSize) with
    | false => exact .inl rfl
    | true =>
      obtain ⟨loaded, hok, hsize⟩ := loadBytes_of_accepts heap buf buflen haccepts
      have hlength := congrArg List.length (hfaithful loaded hok).message_eq
      rw [Loaded.message, read_length, read_length, hsize] at hlength
      exact .inr hlength.symm
  · rintro (hrefused | hlength) loaded hok
    · obtain ⟨info, hinfo, -⟩ := loadBytes_eq_ok hok
      rw [acceptsHeader, hinfo] at hrefused
      cases hrefused
    · exact loadBytes_faithful hlength hok

/-- A header of a method call without header fields and body. -/
def bareHeader : List UInt8 := [108, 1, 0, 1, 0, 0, 0, 0, 1, 0, 0, 0, 0, 0, 0, 0]

/-- With 64 bytes given, 48 bytes are stored behind the header, where the
buffer has room for 8. -/
theorem loadBytes_overruns :
    ((loadBytes .little (fun _ => 0) (fun i => bareHeader.getD i 0) 64).map fun loaded =>
      (loaded.info.bufSize, loaded.stores)) = .ok (24, [(0, 16), (16, 8), (16, 48)]) ∧
    ¬∀ loaded, loadBytes .little (fun _ => 0) (fun i => bareHeader.getD i 0) 64 = .ok loaded →
      loaded.Faithful (read (fun i => bareHeader.getD i 0) 0 64) := by
  refine ⟨by decide, fun hfaithful => ?_⟩
  have haccepts : acceptsHeader .little (read (fun i => bareHeader.getD i 0) 0 headerSize) = true :=
    by decide
  obtain ⟨loaded, hok, hsize⟩ := loadBytes_of_accepts (fun _ => 0) _ 64 haccepts
  have hlength := congrArg List.length (hfaithful loaded hok).message_eq
  rw [Loaded.message, read_length, read_length, hsize] at hlength
  revert hlength
  decide

end AllJoyn.Msg
