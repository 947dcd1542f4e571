import AllJoyn.Message.Load

/-!
Reading messages from a stream without blocking: `_Message::PullBytes`, a state
machine that is resumed by every call of `_Message::ReadNonBlocking`
(`Message_Parse.cc`), over a source that hands out its bytes in pieces of any
size. A source that passes handles along hands out its bytes in the same way.
-/

namespace AllJoyn.Msg

open Lib.Bytes Wire List

variable {todo : List (List UInt8)}

/-! ### The source -/

/-- What a read of the source meets: some bytes are ready, none if the number
is zero, or the thread is alerted. -/
inductive Answer where
  | ready (count : Nat)
  | alerted
  deriving DecidableEq, Repr

/-- A source: the bytes that are still to come, and how the reads find them. -/
structure Source where
  stream : List UInt8
  answers : List Answer
  deriving DecidableEq, Repr

/-- `PullBytes` of a connected source with a timeout of zero. A read of nothing
succeeds, and a read that would block times out. -/
def Source.pullBytes (source : Source) (reqBytes : Nat) : QStatus × List UInt8 × Source :=
  if reqBytes = 0 then (.ok, [], source)
  else
    match source.answers with
    | [] => (.timeout, [], source)
    | .alerted :: answers => (.alertedThread, [], { source with answers })
    | .ready count :: answers =>
      let bytes := source.stream.take (min count reqBytes)
      (if bytes = [] then .timeout else .ok, bytes, ⟨source.stream.drop bytes.length, answers⟩)

/-! ### The reader -/

/-- `AllJoynMessageState`, as used on the read side. -/
inductive ReadState where
  | new
  | headerFields
  | headerBody
  | complete
  deriving DecidableEq, Repr

/-- The part of `_Message` that reading uses: the bytes of `msgHeader` and of
the message buffer up to `bufPos`. -/
structure Incoming where
  readState : ReadState
  header : List UInt8
  buf : List UInt8
  countRead : Nat
  deriving DecidableEq, Repr

/-- A message that is about to be read. -/
def Incoming.fresh : Incoming := ⟨.new, [], [], 0⟩

def maxPull : Nat := 128 * 1024

section

variable (host : ByteOrder)

/-- `PullBytes` in the first 16 bytes. -/
def pullHeader (msg : Incoming) (source : Source) : QStatus × Incoming × Source :=
  let (status, bytes, source) := source.pullBytes (min msg.countRead maxPull)
  let msg := { msg with
    header := msg.header ++ bytes
    countRead := msg.countRead - bytes.length }
  if status ≠ .ok then (status, msg, source)
  else if msg.countRead = 0 then
    match interpretHeader host (.ofBytes host msg.header) with
    | .error status => (status, { msg with readState := .headerBody }, source)
    | .ok info =>
      (.ok, { msg with readState := .headerBody, buf := info.header, countRead := info.pktSize },
        source)
  else (.ok, msg, source)

/-- `PullBytes` behind the first 16 bytes. -/
def pullBody (msg : Incoming) (source : Source) : QStatus × Incoming × Source :=
  let (status, bytes, source) := source.pullBytes (min msg.countRead maxPull)
  if status ≠ .ok ∧ status ≠ .alertedThread then (status, msg, source)
  else
    let msg := { msg with buf := msg.buf ++ bytes, countRead := msg.countRead - bytes.length }
    (.ok, if msg.countRead = 0 then { msg with readState := .complete } else msg, source)

def pullBytes (msg : Incoming) (source : Source) : QStatus × Incoming × Source :=
  match msg.readState with
  | .new => pullHeader host ⟨.headerFields, [], msg.buf, headerSize⟩ source
  | .headerFields => pullHeader host msg source
  | .headerBody => pullBody msg source
  | .complete => (.ok, msg, source)

/-- The loop of `ReadNonBlocking`. -/
def readLoop : Nat → Incoming → Source → QStatus × Incoming × Source
  | 0, msg, source => (.fail, msg, source)
  | turns + 1, msg, source =>
    if msg.readState = .complete then (.ok, msg, source)
    else
      match pullBytes host msg source with
      | (.ok, msg, source) => readLoop turns msg source
      | failed => failed

/-- `_Message::ReadNonBlocking`. Every turn of the loop but the last two uses
an answer of the source up, so that the turns are never too few. -/
def readNonBlocking (msg : Incoming) (source : Source) : QStatus × Incoming × Source :=
  readLoop host (source.answers.length + 2) msg source

/-- An endpoint that reads messages: the messages read so far, and the one that
is being read. -/
structure Reader where
  messages : List (List UInt8)
  current : Incoming
  source : Source
  deriving DecidableEq, Repr

def Reader.start (stream : List UInt8) (answers : List Answer) : Reader :=
  ⟨[], .fresh, stream, answers⟩

/-- One call of `ReadNonBlocking`. A message that is complete is handed on, and
the next one is begun. -/
def Reader.call (reader : Reader) : Reader :=
  match readNonBlocking host reader.current reader.source with
  | (.ok, msg, source) => ⟨reader.messages ++ [msg.buf], .fresh, source⟩
  | (_, msg, source) => { reader with current := msg, source }

def Reader.calls : Nat → Reader → Reader
  | 0, reader => reader
  | count + 1, reader => Reader.calls count (reader.call host)

end

/-! ### What a read of the source does -/

/-- The reads that find bytes are enough for the whole stream. -/
def Source.Enough (source : Source) : Prop :=
  source.stream.length ≤ source.answers.countP (· matches .ready (_ + 1))

/-- A read takes the next bytes of the stream. It fails only without taking any
and uses an answer up, unless there is none left. -/
structure SourceRead (source : Source) (reqBytes : Nat) (result : QStatus × List UInt8 × Source) :
    Prop where
  status_mem : result.1 = .ok ∨ result.1 = .timeout ∨ result.1 = .alertedThread
  bytes_eq : result.2.1 = source.stream.take result.2.1.length
  stream_eq : result.2.2.stream = source.stream.drop result.2.1.length
  length_le : result.2.1.length ≤ reqBytes
  failed : result.1 ≠ .ok → result.2.1 = [] ∧ reqBytes ≠ 0
  answers_lt : result.2.2.answers.length < source.answers.length ∨
    result.2.2.answers = source.answers ∧ (reqBytes ≠ 0 → result.1 = .timeout ∧ source.answers = [])
  enough : source.Enough → result.2.2.Enough

theorem Source.pullBytes_spec (source : Source) (reqBytes : Nat) :
    SourceRead source reqBytes (source.pullBytes reqBytes) := by
  unfold Source.pullBytes
  split
  · next hzero =>
      exact ⟨.inl rfl, rfl, rfl, Nat.zero_le _, fun hok => absurd rfl hok,
        .inr ⟨rfl, fun hreq => absurd hzero hreq⟩, id⟩
  next hreq =>
  obtain ⟨stream, answers⟩ := source
  cases answers with
  | nil =>
    exact ⟨.inr (.inl rfl), rfl, rfl, Nat.zero_le _, fun _ => ⟨rfl, hreq⟩,
      .inr ⟨rfl, fun _ => ⟨rfl, rfl⟩⟩, id⟩
  | cons answer answers =>
    cases answer with
    | alerted =>
      refine ⟨.inr (.inr rfl), rfl, rfl, Nat.zero_le _, fun _ => ⟨rfl, hreq⟩,
        .inl (Nat.lt_succ_self _), fun henough => ?_⟩
      simpa [Source.Enough] using henough
    | ready count =>
      have hbytes : stream.take (min count reqBytes) =
          stream.take (stream.take (min count reqBytes)).length := by
        rw [length_take, take_eq_take_iff]
        omega
      refine ⟨?_, hbytes, rfl, ?_, fun hfailed => ⟨?_, hreq⟩, .inl (Nat.lt_succ_self _),
        fun henough => ?_⟩
      · dsimp only
        split <;> simp
      · simp
      · dsimp only at hfailed ⊢
        by_contra hnonempty
        exact hfailed (if_neg hnonempty)
      · cases count with
        | zero => simpa [Source.Enough] using henough
        | succ count =>
          simp only [Source.Enough, countP_cons, length_drop, length_take]
            at henough ⊢
          simp only [if_true] at henough
          omega

variable {count : Nat} {host : ByteOrder} {bytes : List UInt8}

theorem min_maxPull_eq_zero : min count maxPull = 0 ↔ count = 0 := by
  unfold maxPull
  omega

/-! ### Messages -/

/-- A message whose header is accepted and that is as long as it declares. -/
structure ValidMessage (host : ByteOrder) (bytes : List UInt8) : Prop where
  accepted : acceptsHeader host (bytes.take headerSize) = true
  length_eq : bytes.length = declaredLen (bytes.take headerSize)

theorem ValidMessage.headerSize_le (hvalid : ValidMessage host bytes) :
    headerSize ≤ bytes.length := by
  rw [hvalid.length_eq, declaredLen, Nat.add_assoc]
  exact Nat.le_add_right _ _

theorem ValidMessage.interpretHeader_eq (hvalid : ValidMessage host bytes) :
    ∃ info, interpretHeader host (.ofBytes host (bytes.take headerSize)) = .ok info ∧
      info.header = bytes.take headerSize ∧ info.pktSize = bytes.length - headerSize := by
  have haccepted := hvalid.accepted
  unfold acceptsHeader at haccepted
  cases hinfo : interpretHeader host (.ofBytes host (bytes.take headerSize)) with
  | error status =>
    rw [hinfo] at haccepted
    cases haccepted
  | ok info =>
    have hdeclares := interpretHeader_declares
      (length_take_of_le hvalid.headerSize_le) hinfo
    refine ⟨info, rfl, hdeclares.header_eq, ?_⟩
    rw [hvalid.length_eq, ← hdeclares.size_eq, Nat.add_sub_cancel_left]

/-! ### A message that is being read -/

/-- The message is read up to its byte `got`, where `todo` are the messages
that are still to be handed on. -/
def Reading (todo : List (List UInt8)) (msg : Incoming) (got : Nat) : Prop :=
  match msg.readState with
  | .new => got = 0
  | .headerFields =>
    got < headerSize ∧ got ≤ todo.flatten.length ∧ msg.header = todo.flatten.take got ∧
      msg.countRead = headerSize - got
  | .headerBody =>
    ∃ message others, todo = message :: others ∧ headerSize ≤ got ∧ got ≤ message.length ∧
      msg.buf = message.take got ∧ msg.countRead = message.length - got
  | .complete => ∃ message others, todo = message :: others ∧ got = message.length ∧ msg.buf = message

/-- The turns that are left for the loop. -/
def turnsLeft (msg : Incoming) (source : Source) : Nat :=
  source.answers.length + if msg.readState = .complete then 0 else 1

theorem turnsLeft_le (msg : Incoming) (source : Source) :
    turnsLeft msg source ≤ source.answers.length + 1 := by
  unfold turnsLeft
  split <;> omega

/-- What one pull does: the bytes it takes are those of the messages, and a
pull that fails leaves a message that lacks bytes. -/
structure Pulled (todo : List (List UInt8)) (msg : Incoming) (source : Source)
    (result : QStatus × Incoming × Source) : Prop where
  status_mem : result.1 = .ok ∨ result.1 = .timeout ∨ result.1 = .alertedThread
  reading : ∃ got, Reading todo result.2.1 got ∧ result.2.2.stream = todo.flatten.drop got
  lacks : result.1 ≠ .ok → result.2.1.readState ≠ .complete ∧ result.2.1.countRead ≠ 0
  turns : result.1 = .ok → turnsLeft result.2.1 result.2.2 < turnsLeft msg source
  answers : result.2.2.answers.length < source.answers.length ∨
    result.2.2.answers = source.answers ∧ (result.1 ≠ .ok → source.answers = [])
  enough : source.Enough → result.2.2.Enough

section

variable {host : ByteOrder} {todo : List (List UInt8)} {msg : Incoming} {source : Source}
  {got : Nat}

section Read

variable {status : QStatus} {bytes : List UInt8} {next : Source}
  (hread : SourceRead source (min msg.countRead maxPull) (status, bytes, next))
  (hopen : msg.readState ≠ .complete) (hstream : source.stream = todo.flatten.drop got)

include hread hopen hstream

theorem SourceRead.failed_pulled (hreading : Reading todo msg got) (hnotOk : status ≠ .ok) :
    Pulled todo msg source (status, msg, next) := by
  obtain ⟨hempty, hrequest⟩ := hread.failed hnotOk
  have hnext : next.stream = todo.flatten.drop got := by
    simpa [show bytes = [] from hempty, hstream] using hread.stream_eq
  exact ⟨hread.status_mem, ⟨got, hreading, hnext⟩,
    fun _ => ⟨hopen, fun hzero => hrequest (min_maxPull_eq_zero.mpr hzero)⟩,
    fun hok => absurd hok hnotOk,
    hread.answers_lt.imp_right fun hsame => ⟨hsame.1, fun _ => (hsame.2 hrequest).2⟩, hread.enough⟩

theorem SourceRead.taken_pulled {msg' : Incoming}
    (hreading : Reading todo msg' (got + bytes.length))
    (hlast : msg.countRead = 0 ∨ status = .timeout → msg'.readState = .complete) :
    Pulled todo msg source (.ok, msg', next) := by
  have hnext : next.stream = todo.flatten.drop (got + bytes.length) := by
    rw [← drop_drop, ← hstream]
    exact hread.stream_eq
  refine ⟨.inl rfl, ⟨_, hreading, hnext⟩, fun hnot => absurd rfl hnot, fun _ => ?_,
    hread.answers_lt.imp_right fun hsame => ⟨hsame.1, fun hnot => absurd rfl hnot⟩, hread.enough⟩
  simp only [turnsLeft, if_neg hopen]
  rcases hread.answers_lt with hlt | ⟨hsame, hrequest⟩
  · dsimp only at hlt
    split <;> omega
  · have hcomplete : msg'.readState = .complete := by
      refine hlast (or_iff_not_imp_left.mpr fun hmore => (hrequest ?_).1)
      rwa [Ne, min_maxPull_eq_zero]
    rw [if_pos hcomplete, show next.answers = source.answers from hsame]
    omega

end Read

/-- The bytes that complete the first 16 are those of the first message. -/
theorem exists_message (hvalid : ∀ message ∈ todo, ValidMessage host message)
    (hlength : headerSize ≤ todo.flatten.length) :
    ∃ message others, todo = message :: others ∧ ValidMessage host message ∧
      todo.flatten.take headerSize = message.take headerSize := by
  cases todo with
  | nil => simp [headerSize] at hlength
  | cons message others =>
    have hmessage := hvalid message mem_cons_self
    refine ⟨message, others, rfl, hmessage, ?_⟩
    rw [flatten_cons, take_append_of_le_length hmessage.headerSize_le]

variable (hreading : Reading todo msg got) (hstream : source.stream = todo.flatten.drop got)

include hreading hstream

theorem pullBody_pulled (hstate : msg.readState = .headerBody) :
    Pulled todo msg source (pullBody msg source) := by
  have hpart := hreading
  simp only [Reading, hstate] at hpart
  obtain ⟨message, others, rfl, hheader, hle, hbuf, hcount⟩ := hpart
  have hopen : msg.readState ≠ .complete := by simp [hstate]
  have hread := source.pullBytes_spec (min msg.countRead maxPull)
  unfold pullBody
  generalize source.pullBytes (min msg.countRead maxPull) = result at hread ⊢
  obtain ⟨status, bytes, next⟩ := result
  have hlength : bytes.length ≤ min msg.countRead maxPull := hread.length_le
  have hbytes : bytes = source.stream.take bytes.length := hread.bytes_eq
  dsimp only
  split
  · next htimeout => exact hread.failed_pulled hopen hstream hreading htimeout.1
  next hgoesOn =>
  have hnextBuf : msg.buf ++ bytes = message.take (got + bytes.length) := by
    have hinside : (message.drop got).take bytes.length = bytes := by
      conv_rhs => rw [hbytes]
      rw [hstream, flatten_cons, drop_append_of_le_length hle,
        take_append_of_le_length (by rw [length_drop]; omega)]
    rw [take_add, ← hbuf, hinside]
  refine hread.taken_pulled hopen hstream ?_ ?_
  · split
    · have hall : got + bytes.length = message.length := by omega
      exact ⟨message, others, rfl, hall, by simpa [hall] using hnextBuf⟩
    · simp only [Reading, hstate]
      exact ⟨message, others, rfl, by omega, by omega, hnextBuf, by omega⟩
  · rintro (hzero | htimeout)
    · rw [if_pos (by omega)]
    · exact absurd (by rw [htimeout]; decide) hgoesOn

variable (hvalid : ∀ message ∈ todo, ValidMessage host message)

include hvalid

theorem pullHeader_pulled (hstate : msg.readState = .headerFields) :
    Pulled todo msg source (pullHeader host msg source) := by
  have hpart := hreading
  simp only [Reading, hstate] at hpart
  obtain ⟨hgot, hle, hheader, hcount⟩ := hpart
  have hopen : msg.readState ≠ .complete := by simp [hstate]
  have hread := source.pullBytes_spec (min msg.countRead maxPull)
  unfold pullHeader
  generalize source.pullBytes (min msg.countRead maxPull) = result at hread ⊢
  obtain ⟨status, bytes, next⟩ := result
  have hlength : bytes.length ≤ min msg.countRead maxPull := hread.length_le
  have hbytes : bytes = source.stream.take bytes.length := hread.bytes_eq
  dsimp only
  split
  · next hnotOk =>
      obtain rfl : bytes = [] := (hread.failed hnotOk).1
      simpa using hread.failed_pulled hopen hstream hreading hnotOk
  next hok =>
  rw [not_not] at hok
  subst hok
  have hnextHeader : msg.header ++ bytes = todo.flatten.take (got + bytes.length) := by
    rw [take_add, ← hheader, ← hstream, ← hbytes]
  have hroom := congrArg List.length hnextHeader
  rw [length_append, hheader, length_take, length_take] at hroom
  have hlast : ¬(msg.countRead = 0 ∨ QStatus.ok = .timeout) := by
    rintro (hzero | hfalse)
    · omega
    · cases hfalse
  split
  · -- the 16 bytes are there
    have hsixteen : got + bytes.length = headerSize := by omega
    obtain ⟨message, others, rfl, hmessage, htake⟩ := exists_message hvalid (by omega)
    obtain ⟨info, hinfo, hinfoHeader, hpktSize⟩ := hmessage.interpretHeader_eq
    rw [hnextHeader, hsixteen, htake, hinfo]
    refine hread.taken_pulled hopen hstream ?_ fun h => absurd h hlast
    rw [hsixteen]
    exact ⟨message, others, rfl, le_rfl, hmessage.headerSize_le, hinfoHeader, hpktSize⟩
  · refine hread.taken_pulled hopen hstream ?_ fun h => absurd h hlast
    simp only [Reading, hstate]
    exact ⟨by omega, by omega, hnextHeader, by omega⟩

theorem pullBytes_pulled (hstate : msg.readState ≠ .complete) :
    Pulled todo msg source (pullBytes host msg source) := by
  unfold pullBytes
  split
  · next hnew =>
      have hgot : got = 0 := by simpa only [Reading, hnew] using hreading
      subst hgot
      have hpulled : Pulled todo ⟨.headerFields, [], msg.buf, headerSize⟩ source _ :=
        pullHeader_pulled ⟨Nat.zero_lt_succ 15, Nat.zero_le _, rfl, rfl⟩ hstream hvalid rfl
      exact { hpulled with
        turns := fun hok => (hpulled.turns hok).trans_eq (by simp [turnsLeft, hnew]) }
  · next hheader => exact pullHeader_pulled hreading hstream hvalid hheader
  · next hbody => exact pullBody_pulled hreading hstream hbody
  · next hcomplete => exact absurd hcomplete hstate

/-! ### Calls -/

/-- What a call of `ReadNonBlocking` does: it succeeds with a whole message, or
it stops in a message that lacks bytes. -/
structure Called (todo : List (List UInt8)) (source : Source)
    (result : QStatus × Incoming × Source) : Prop where
  reading : ∃ got, Reading todo result.2.1 got ∧ result.2.2.stream = todo.flatten.drop got
  complete : result.1 = .ok → result.2.1.readState = .complete
  lacks : result.1 ≠ .ok → result.2.1.readState ≠ .complete ∧ result.2.1.countRead ≠ 0
  answers_le : result.2.2.answers.length ≤ source.answers.length
  answers_lt : result.1 ≠ .ok →
    result.2.2.answers.length < source.answers.length ∨ result.2.2.answers = []
  enough : source.Enough → result.2.2.Enough

theorem readLoop_called (turns : Nat) (hturns : turnsLeft msg source < turns) :
    Called todo source (readLoop host turns msg source) := by
  induction turns generalizing msg source got with
  | zero => exact absurd hturns (Nat.not_lt_zero _)
  | succ turns ih =>
    rw [readLoop]
    split
    · next hcomplete =>
        exact ⟨⟨got, hreading, hstream⟩, fun _ => hcomplete, fun hnot => absurd rfl hnot, le_rfl,
          fun hnot => absurd rfl hnot, id⟩
    next hincomplete =>
    have hpulled := pullBytes_pulled hreading hstream hvalid hincomplete
    have hpulledLe : (pullBytes host msg source).2.2.answers.length ≤ source.answers.length :=
      hpulled.answers.elim Nat.le_of_lt fun hsame => hsame.1 ▸ le_rfl
    split
    · next msg' source' hresult =>
        rw [hresult] at hpulled hpulledLe
        obtain ⟨got', hreading', hstream'⟩ := hpulled.reading
        have hcalled := ih hreading' hstream' (by have := hpulled.turns rfl; omega)
        exact ⟨hcalled.reading, hcalled.complete, hcalled.lacks,
          hcalled.answers_le.trans hpulledLe,
          fun hnot => (hcalled.answers_lt hnot).imp_left fun hlt => hlt.trans_le hpulledLe,
          fun henough => hcalled.enough (hpulled.enough henough)⟩
    · next hfailed =>
        have hnot : (pullBytes host msg source).1 ≠ .ok := fun hok =>
          hfailed _ _ (Prod.ext hok rfl)
        refine ⟨hpulled.reading, fun hok => absurd hok hnot, hpulled.lacks, hpulledLe,
          fun _ => hpulled.answers.imp_right fun hsame => hsame.1.trans (hsame.2 hnot),
          hpulled.enough⟩

theorem readNonBlocking_called : Called todo source (readNonBlocking host msg source) :=
  readLoop_called hreading hstream hvalid _ (Nat.lt_succ_of_le (turnsLeft_le msg source))

end

/-! ### Whole runs -/

section

variable {host : ByteOrder} {messages : List (List UInt8)} {reader : Reader} {got : Nat}

/-- The reader has handed on the first of the messages and holds a part of the
next one, which is not complete. -/
structure Reader.At (messages : List (List UInt8)) (reader : Reader) (todo : List (List UInt8))
    (got : Nat) : Prop where
  messages_eq : messages = reader.messages ++ todo
  reading : Reading todo reader.current got
  stream_eq : reader.source.stream = todo.flatten.drop got
  lacks : reader.current.readState = .new ∨
    reader.current.readState ≠ .complete ∧ reader.current.countRead ≠ 0

theorem Reader.at_start (messages : List (List UInt8)) (answers : List Answer) :
    (Reader.start messages.flatten answers).At messages messages 0 :=
  ⟨rfl, rfl, rfl, .inl rfl⟩

/-- Bytes of the next message are missing, and bytes behind it are not read. -/
theorem Reader.At.got_lt {message : List UInt8} {others : List (List UInt8)}
    (hat : reader.At messages (message :: others) got) (hmessage : ValidMessage host message) :
    got < message.length := by
  have hheader := hmessage.headerSize_le
  have hpositive : 0 < headerSize := Nat.zero_lt_succ 15
  have hreading := hat.reading
  unfold Reading at hreading
  split at hreading
  · omega
  · omega
  · next hbody =>
      obtain ⟨_, _, heq, -, -, -, hcount⟩ := hreading
      cases heq
      have hlacks := hat.lacks.resolve_left (by rw [hbody]; decide)
      omega
  · next hcomplete =>
      have hlacks := hat.lacks.resolve_left (by rw [hcomplete]; decide)
      exact absurd hcomplete hlacks.1

section Valid

variable (hvalid : ∀ message ∈ messages, ValidMessage host message)

include hvalid

variable (hat : reader.At messages todo got)

include hat

theorem Reader.At.got_le : got ≤ (todo.headD []).length := by
  cases todo with
  | nil =>
    have hreading := hat.reading
    unfold Reading at hreading
    split at hreading
    · omega
    · simpa using hreading.2.1
    · obtain ⟨_, _, heq, -⟩ := hreading
      cases heq
    · obtain ⟨_, _, heq, -⟩ := hreading
      cases heq
  | cons message others =>
    have hmessage : ValidMessage host message := hvalid message (by simp [hat.messages_eq])
    exact (hat.got_lt hmessage).le

/-- One call hands on the next message, or uses answers of the source up. -/
theorem Reader.At.call :
    ∃ todo' got', (reader.call host).At messages todo' got' ∧
      (reader.call host).source.answers.length ≤ reader.source.answers.length ∧
      (reader.source.Enough → (reader.call host).source.Enough) ∧
      (todo'.length < todo.length ∨ todo' = todo ∧
        ((reader.call host).source.answers.length < reader.source.answers.length ∨
          (reader.call host).source.answers = [])) := by
  have hmem : ∀ message ∈ todo, ValidMessage host message := by
    intro message hmessage
    exact hvalid message (by rw [hat.messages_eq]; exact mem_append_right _ hmessage)
  have hcalled := readNonBlocking_called hat.reading hat.stream_eq hmem
  unfold Reader.call
  split
  · next msg source hresult =>
      rw [hresult] at hcalled
      obtain ⟨got', hreading, hstream⟩ := hcalled.reading
      rw [Reading, hcalled.complete rfl] at hreading
      obtain ⟨message, others, rfl, rfl, hbuf⟩ := hreading
      refine ⟨others, 0, ⟨?_, rfl, ?_, .inl rfl⟩, hcalled.answers_le, hcalled.enough,
        .inl (Nat.lt_succ_self _)⟩
      · rw [hat.messages_eq, ← hbuf, append_assoc]
        rfl
      · rw [hstream, flatten_cons, drop_left]
        rfl
  · next status msg source hfailed hresult =>
      rw [hresult] at hcalled
      have hnot : status ≠ .ok := hfailed
      obtain ⟨got', hreading, hstream⟩ := hcalled.reading
      exact ⟨todo, got', ⟨hat.messages_eq, hreading, hstream, .inr (hcalled.lacks hnot)⟩,
        hcalled.answers_le, hcalled.enough, .inr ⟨rfl, hcalled.answers_lt hnot⟩⟩

theorem Reader.At.calls (count : Nat) :
    ∃ todo' got', (reader.calls host count).At messages todo' got' ∧
      (reader.calls host count).source.answers.length ≤ reader.source.answers.length ∧
      (reader.source.Enough → (reader.calls host count).source.Enough) := by
  induction count generalizing reader todo got with
  | zero => exact ⟨todo, got, hat, le_rfl, id⟩
  | succ count ih =>
    obtain ⟨_, _, hnext, hle, henough, -⟩ := hat.call hvalid
    obtain ⟨todo', got', hlast, hle', henough'⟩ := ih hnext
    exact ⟨todo', got', hlast, hle'.trans hle, henough' ∘ henough⟩

theorem Reader.At.calls_exhaust (hcount : reader.source.answers.length + todo.length ≤ count) :
    (reader.calls host count).source.answers = [] := by
  induction count generalizing reader todo got with
  | zero => exact length_eq_zero_iff.mp (by rw [Reader.calls]; omega)
  | succ count ih =>
    obtain ⟨_, _, hnext, hle, -, hprogress⟩ := hat.call hvalid
    rcases hprogress with hshorter | ⟨rfl, hfewer | hnone⟩
    · exact ih hnext (by omega)
    · exact ih hnext (by omega)
    · obtain ⟨_, _, -, hle', -⟩ := hnext.calls hvalid count
      rw [hnone] at hle'
      exact length_eq_zero_iff.mp (Nat.le_zero.mp hle')

theorem Reader.At.done (hstream : reader.source.stream = []) : reader.messages = messages := by
  cases todo with
  | nil => rw [hat.messages_eq, List.append_nil]
  | cons message others =>
    have hlt := hat.got_lt (hvalid message (by simp [hat.messages_eq]))
    have hlength := congrArg List.length (hat.stream_eq.symm.trans hstream)
    simp only [flatten_cons, length_drop, length_append,
      length_nil] at hlength
    omega

end Valid

/-- However a stream of messages is cut into reads, the calls hand on exactly
its messages in order. At any time only bytes of the next message are read
ahead, and once the source has handed out all bytes every message is there. -/
theorem reads_any_pieces (host : ByteOrder) (messages : List (List UInt8)) (answers : List Answer)
    (count : Nat) (hvalid : ∀ message ∈ messages, ValidMessage host message) :
    (∃ todo got,
      messages = ((Reader.start messages.flatten answers).calls host count).messages ++ todo ∧
      ((Reader.start messages.flatten answers).calls host count).source.stream =
        todo.flatten.drop got ∧ got ≤ (todo.headD []).length) ∧
    ((Reader.start messages.flatten answers).source.Enough →
      answers.length + messages.length ≤ count →
      ((Reader.start messages.flatten answers).calls host count).messages = messages ∧
      ((Reader.start messages.flatten answers).calls host count).source.stream = []) := by
  have hstart := Reader.at_start messages answers
  obtain ⟨todo, got, hat, -, henough⟩ := hstart.calls hvalid count
  refine ⟨⟨todo, got, hat.messages_eq, hat.stream_eq, hat.got_le hvalid⟩, fun hall hcount => ?_⟩
  have hnone := hstart.calls_exhaust hvalid hcount
  have hlength := henough hall
  rw [Source.Enough, hnone, countP_nil] at hlength
  have hstream := length_eq_zero_iff.mp (Nat.le_zero.mp hlength)
  exact ⟨hat.done hvalid hstream, hstream⟩

theorem bareHeader_valid : ValidMessage .little bareHeader := ⟨by decide, by decide⟩

/-- Two messages that arrive byte by byte. -/
theorem reads_single_bytes :
    ((Reader.start [bareHeader, bareHeader].flatten (List.replicate 32 (.ready 1))).calls
      .little 34).messages = [bareHeader, bareHeader] ∧
    ((Reader.start [bareHeader, bareHeader].flatten (List.replicate 32 (.ready 1))).calls
      .little 34).source.stream = [] :=
  (reads_any_pieces .little [bareHeader, bareHeader] (List.replicate 32 (.ready 1)) 34
    (by simp [bareHeader_valid])).2 (by simp [Source.Enough, Reader.start, bareHeader]) (by simp)

end

end AllJoyn.Msg
