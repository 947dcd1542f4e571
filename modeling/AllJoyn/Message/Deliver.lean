import AllJoyn.Lib.Run
import AllJoyn.Status

/-!
Delivery of a message to a remote endpoint: `_Message::EncryptMessage`, the
blocking `_Message::Deliver` and the resumable `_Message::DeliverNonBlocking`.

Everything a call asks of its surroundings is an answer in `Env`: the key
lookup, the two authorization checks, the cipher, the key exchange and the
sink. Each call yields the events it causes, in order, so that what reached the
sink can be compared with what was encrypted before it.
-/

namespace AllJoyn.Delivery

/-- `AllJoynMessageState`, as used on the write side. -/
inductive WriteState where
  | new
  | headerFields
  | headerBody
  | complete
  deriving DecidableEq, Repr

/-- The part of `_Message` that delivery reads and writes. `buf` is the buffer
from `msgBuf` to `bufEOD`; `writePtr` is an offset into it. -/
structure Message where
  buf : List UInt8
  encrypt : Bool
  authorizationChecked : Bool
  authVersion : Int
  hasDestination : Bool
  handles : Bool
  ttl : Nat
  writeState : WriteState
  writePtr : Nat
  countWrite : Nat
  deriving DecidableEq, Repr

open Message

/-- One answer of the sink: its status and how many bytes it took. -/
structure Push where
  status : QStatus
  pushed : Nat
  deriving DecidableEq, Repr

/-- The answers one delivery call gets. A sink that has no answer left blocks. -/
structure Env where
  handlePassing : Bool
  expired : Bool
  getKey : QStatus
  isAuthorized : Bool
  authorizeMessage : QStatus
  peerSecure : Bool
  peerAuthVersion : Nat
  /-- `AUTH_FALLBACK_VERSION`, a constant the headers declare without a value. -/
  authFallbackVersion : Nat
  /-- `Crypto::Encrypt` at an authentication version: its status and the buffer
  it leaves behind. -/
  crypt : Int → List UInt8 → QStatus × List UInt8
  requestAuthentication : QStatus
  sink : List Push

/-- What a delivery call does that can be seen from outside. -/
inductive Event where
  | encrypted (status : QStatus)
  | pushed (bytes : List UInt8)
  deriving DecidableEq, Repr

/-- The version the cipher runs at: the negotiated one is filled in when it was
not known while the message was marshaled. -/
def Message.cipherVersion (m : Message) (env : Env) : Int :=
  if m.authVersion < 0 then
    if m.hasDestination && env.peerSecure then env.peerAuthVersion >>> 16
    else env.authFallbackVersion
  else m.authVersion

/-- The first part of `EncryptMessage`: find the key and check that the peer and
the message are authorized. -/
def Message.authorizeSend (m : Message) (env : Env) : QStatus × Message :=
  if env.getKey = .ok then
    if env.isAuthorized = false then (.busNotAuthorized, { m with encrypt := false })
    else if m.authorizationChecked = false then
      (env.authorizeMessage, { m with authorizationChecked := true })
    else (.ok, m)
  else (env.getKey, m)

/-- The second part: run the cipher over the marshaled message. -/
def Message.cipher (m : Message) (env : Env) : QStatus × Message :=
  let version := m.cipherVersion env
  let (status, buf) := env.crypt version m.buf
  if status = .ok then
    (.ok, { m with authVersion := version, encrypt := false, buf := buf })
  else (status, { m with authVersion := version, buf := buf })

/-- `_Message::EncryptMessage`. An authentication is requested when there is no
key. -/
def Message.encryptMessage (m : Message) (env : Env) : QStatus × Message :=
  let (status, m) := m.authorizeSend env
  let (status, m) := if status = .ok then m.cipher env else (status, m)
  if status = .busKeyUnavailable then
    if env.requestAuthentication = .ok then (.busAuthenticationPending, m)
    else (env.requestAuthentication, { m with encrypt := false })
  else (status, m)

/-- The bytes the message still has to hand to the sink. -/
def Message.pending (m : Message) : List UInt8 :=
  (m.buf.drop m.writePtr).take m.countWrite

def Message.advance (m : Message) (pushed : Nat) : Message :=
  { m with countWrite := m.countWrite - pushed, writePtr := m.writePtr + pushed }

/-- The `MESSAGE_HEADER_BODY` loop: push until everything is written or the sink
refuses. -/
def Message.pushBody (m : Message) : List Push → QStatus × Message × List Event
  | [] =>
    if m.countWrite = 0 then (.ok, { m with writeState := .complete }, [])
    else (.wouldBlock, m, [.pushed m.pending])
  | push :: rest =>
    if m.countWrite = 0 then (.ok, { m with writeState := .complete }, [])
    else if push.status = .ok then
      let (status, next, events) := (m.advance push.pushed).pushBody rest
      (status, next, .pushed m.pending :: events)
    else (push.status, m, [.pushed m.pending])

/-- The `MESSAGE_HEADERFIELDS` case, which falls through to the body. -/
def Message.pushHeader (m : Message) : List Push → QStatus × Message × List Event
  | [] => (.wouldBlock, m, [.pushed m.pending])
  | push :: rest =>
    if push.status = .ok then
      let (status, next, events) :=
        { m.advance push.pushed with writeState := .headerBody }.pushBody rest
      (status, next, .pushed m.pending :: events)
    else (push.status, m, [.pushed m.pending])

/-- A new delivery writes the buffer from its start. -/
def Message.restart (m : Message) : Message :=
  { m with writePtr := 0, countWrite := m.buf.length }

def Message.deliverNonBlocking (m : Message) (env : Env) : QStatus × Message × List Event :=
  match m.writeState with
  | .new =>
    let m := m.restart
    if m.countWrite = 0 then (.busEmptyMessage, m, [])
    else if m.handles = true ∧ env.handlePassing = false then (.busHandlesNotEnabled, m, [])
    else if m.ttl ≠ 0 ∧ env.expired = true then (.ok, m, [])
    else if m.encrypt = true then
      let (status, m) := m.encryptMessage env
      -- delivery is retried when the authentication completes
      if status = .busAuthenticationPending then (.ok, m, [.encrypted status])
      else
        -- any other failure falls through to the first push
        let m := { m with countWrite := m.buf.length - m.writePtr, writeState := .headerFields }
        let (pushStatus, next, events) := m.pushHeader env.sink
        (pushStatus, next, .encrypted status :: events)
    else { m with writeState := .headerFields }.pushHeader env.sink
  | .headerFields => m.pushHeader env.sink
  | .headerBody => m.pushBody env.sink
  | .complete => (.ok, m, [])

/-- `_Message::Deliver`; its own buffer cursor starts at the message start. -/
def Message.deliver (m : Message) (env : Env) : QStatus × Message × List Event :=
  let m := m.restart
  if m.countWrite = 0 then (.busEmptyMessage, m, [])
  else if m.handles = true ∧ env.handlePassing = false then (.busHandlesNotEnabled, m, [])
  else if m.ttl ≠ 0 ∧ env.expired = true then (.ok, m, [])
  else if m.encrypt = true then
    -- the length was taken before the encryption
    let (status, next) := m.encryptMessage env
    if status = .busAuthenticationPending then (.ok, next, [.encrypted status])
    else if status = .ok then
      let (pushStatus, last, events) := next.pushHeader env.sink
      (pushStatus, last, .encrypted status :: events)
    else (status, next, [.encrypted status])
  else m.pushHeader env.sink

/-- Every push comes after a successful encryption. -/
def SinkProtected (log : List Event) : Prop :=
  ∀ before bytes after, log = before ++ .pushed bytes :: after →
    Event.encrypted .ok ∈ before

/-- One call of a run, with the log of everything before it. -/
def deliverStep (s : Message × List Event) (env : Env) : Message × List Event :=
  let (_, next, events) := s.1.deliverNonBlocking env
  (next, s.2 ++ events)

/-- The call gets as far as `EncryptMessage`. -/
def Message.ReachesEncryption (m : Message) (env : Env) : Prop :=
  m.writeState = .new ∧ m.encrypt = true ∧ m.buf ≠ [] ∧
    ¬ (m.handles = true ∧ env.handlePassing = false) ∧
    ¬ (m.ttl ≠ 0 ∧ env.expired = true)

/-- The first answer on the way to a ciphertext that is not `ER_OK`, in the
order they are asked for, or `ER_OK` when there is none. -/
def Message.firstRefusal (m : Message) (env : Env) : QStatus :=
  if env.getKey ≠ .ok then env.getKey
  else if env.isAuthorized = false then .busNotAuthorized
  else if m.authorizationChecked = false ∧ env.authorizeMessage ≠ .ok then env.authorizeMessage
  else (env.crypt (m.cipherVersion env) m.buf).1

/-- Encryption succeeds, or is put off until an authentication completes: the
first refusal says that the key is missing and the key exchange takes the
message, or it says that an authentication is already pending. -/
def Message.Protects (m : Message) (env : Env) : Prop :=
  m.firstRefusal env = .ok ∨ m.firstRefusal env = .busAuthenticationPending ∨
    (m.firstRefusal env = .busKeyUnavailable ∧ env.requestAuthentication = .ok)

instance (m : Message) (env : Env) : Decidable (m.ReachesEncryption env) :=
  inferInstanceAs (Decidable (_ ∧ _))

variable (m : Message) (env : Env)

theorem Message.cipher_fst : (m.cipher env).1 = (env.crypt (m.cipherVersion env) m.buf).1 := by
  simp only [cipher]
  split
  · rename_i hok
    exact hok.symm
  · rfl

theorem Message.cipher_frame (h : (m.cipher env).1 ≠ .ok) :
    (m.cipher env).2.encrypt = m.encrypt ∧ (m.cipher env).2.writeState = m.writeState := by
  rw [m.cipher_fst env] at h
  simp [cipher, h]

/-- The status after the two parts of `EncryptMessage` is the first refusal, and
unless it is `ER_OK` or the peer is not authorized the message stays marked for
encryption. -/
theorem Message.encrypt_parts :
    let (status, next) := m.authorizeSend env
    let (status, next) := if status = .ok then next.cipher env else (status, next)
    status = m.firstRefusal env ∧
      (status ≠ .ok → status ≠ .busNotAuthorized →
        next.encrypt = m.encrypt ∧ next.writeState = m.writeState) := by
  unfold authorizeSend firstRefusal
  by_cases hkey : env.getKey = .ok
  · cases hauth : env.isAuthorized with
    | false => simp [hkey]
    | true =>
      cases hchecked : m.authorizationChecked with
      | false =>
        by_cases hperm : env.authorizeMessage = .ok
        · have hversion : ({ m with authorizationChecked := true } : Message).cipherVersion env
              = m.cipherVersion env := rfl
          simp only [hkey, hperm, if_true, Bool.true_eq_false, if_false, ne_eq,
            not_true_eq_false, and_false]
          refine ⟨?_, fun hfail _ => ?_⟩
          · rw [cipher_fst, hversion]
          · exact cipher_frame _ env hfail
        · simp [hkey, hperm]
      | true =>
        simp only [hkey]
        exact ⟨m.cipher_fst env, fun hfail _ => m.cipher_frame env hfail⟩
  · simp [hkey]

/-- Encryption that is answered this way succeeds, or reports a pending
authentication and leaves the message marked for encryption. -/
theorem Message.encryptMessage_of_protects (h : m.Protects env) :
    (m.encryptMessage env).1 = .ok ∨
      ((m.encryptMessage env).1 = .busAuthenticationPending ∧
        (m.encryptMessage env).2.encrypt = m.encrypt ∧
        (m.encryptMessage env).2.writeState = m.writeState) := by
  have hparts := m.encrypt_parts env
  unfold encryptMessage
  cases hsend : m.authorizeSend env with
  | mk sendStatus sent =>
    simp only [hsend] at hparts ⊢
    obtain ⟨hstatus, hframe⟩ := hparts
    rw [hstatus] at hframe ⊢
    rcases h with hok | hpending | ⟨hmissing, hrequest⟩
    · left
      simp [hok]
    · right
      have hsame := hframe (by simp [hpending]) (by simp [hpending])
      simpa [hpending] using hsame
    · right
      have hsame := hframe (by simp [hmissing]) (by simp [hmissing])
      simpa [hmissing, hrequest] using hsame

variable {log : List Event}

theorem SinkProtected.append (h : SinkProtected log) (hencrypted : Event.encrypted .ok ∈ log)
    (events : List Event) : SinkProtected (log ++ events) := by
  intro before bytes after hsplit
  rcases List.append_eq_append_iff.mp hsplit with ⟨middle, rfl, -⟩ | ⟨middle, hlog, hrest⟩
  · exact List.mem_append_left middle hencrypted
  · cases middle with
    | nil =>
      simp only [List.append_nil] at hlog
      exact hlog ▸ hencrypted
    | cons first rest =>
      obtain ⟨rfl, -⟩ := List.cons.inj hrest
      exact h before bytes rest hlog

theorem sinkProtected_of_no_push (h : ∀ bytes, Event.pushed bytes ∉ log) : SinkProtected log := by
  intro before bytes after hsplit
  exact absurd (hsplit ▸ by simp : Event.pushed bytes ∈ log) (h bytes)

/-- Before the first successful encryption nothing was pushed and the message
still has to be encrypted. -/
def DeliveryInv (s : Message × List Event) : Prop :=
  (s.1.writeState = .new ∧ s.1.encrypt = true ∧ ∀ bytes, Event.pushed bytes ∉ s.2) ∨
    (Event.encrypted .ok ∈ s.2 ∧ SinkProtected s.2)

theorem DeliveryInv.sinkProtected {s : Message × List Event} (h : DeliveryInv s) :
    SinkProtected s.2 := by
  rcases h with ⟨-, -, hnone⟩ | ⟨-, hprotected⟩
  · exact sinkProtected_of_no_push hnone
  · exact hprotected

/-- A call that stops before the encryption pushes nothing. -/
theorem Message.deliverNonBlocking_stops (hnew : m.writeState = .new)
    (hencrypt : m.encrypt = true) (hstop : ¬ m.ReachesEncryption env) :
    (m.deliverNonBlocking env).2 = (m.restart, []) := by
  simp only [deliverNonBlocking, hnew]
  split
  · rfl
  · rename_i hcount
    split
    · rfl
    · rename_i hhandles
      split
      · rfl
      · rename_i hexpired
        have hbuf : m.buf ≠ [] := by simpa [restart] using hcount
        exact absurd ⟨hnew, hencrypt, hbuf, hhandles, hexpired⟩ hstop

/-- A call that gets to the encryption stops there only when an authentication
is pending; otherwise it goes on to the sink, whatever the status. -/
theorem Message.deliverNonBlocking_reaches (hreach : m.ReachesEncryption env) {status : QStatus}
    {next : Message} (hencrypts : m.restart.encryptMessage env = (status, next)) :
    (status = .busAuthenticationPending ∧
        (m.deliverNonBlocking env).2 = (next, [.encrypted status])) ∨
      (status ≠ .busAuthenticationPending ∧
        ∃ last events, (m.deliverNonBlocking env).2 = (last, .encrypted status :: events)) := by
  obtain ⟨hnew, hencrypt, hbuf, hhandles, hexpired⟩ := hreach
  have hcount : m.restart.countWrite ≠ 0 := by simpa [restart] using hbuf
  have hmarked : m.restart.encrypt = true := hencrypt
  replace hhandles : ¬ (m.restart.handles = true ∧ env.handlePassing = false) := hhandles
  replace hexpired : ¬ (m.restart.ttl ≠ 0 ∧ env.expired = true) := hexpired
  by_cases hpending : status = .busAuthenticationPending
  · left
    refine ⟨hpending, ?_⟩
    simp only [deliverNonBlocking, hnew]
    rw [if_neg hcount, if_neg hhandles, if_neg hexpired, if_pos hmarked, hencrypts]
    simp only [if_pos hpending]
  · right
    refine ⟨hpending, ?_⟩
    simp only [deliverNonBlocking, hnew]
    rw [if_neg hcount, if_neg hhandles, if_neg hexpired, if_pos hmarked, hencrypts]
    simp only [if_neg hpending]
    exact ⟨_, _, rfl⟩

theorem deliverStep_inv (s : Message × List Event) (env : Env) (h : DeliveryInv s)
    (hok : s.1.ReachesEncryption env → s.1.Protects env) :
    DeliveryInv (deliverStep s env) := by
  obtain ⟨m, log⟩ := s
  rcases h with ⟨hnew, hencrypt, hnone⟩ | ⟨hencrypted, hprotected⟩
  · by_cases hreach : m.ReachesEncryption env
    · have hstatus := m.restart.encryptMessage_of_protects env (hok hreach)
      cases hencrypts : m.restart.encryptMessage env with
      | mk status next =>
        rw [hencrypts] at hstatus
        rcases m.deliverNonBlocking_reaches env hreach hencrypts with
          ⟨hpending, hcall⟩ | ⟨hpending, last, events, hcall⟩
        · left
          rcases hstatus with hsuccess | ⟨-, hstill, hstate⟩
          · exact absurd (hsuccess.symm.trans hpending) (by decide)
          · simp only [deliverStep, hcall]
            exact ⟨hstate.trans hnew, hstill.trans hencrypt, by simpa using hnone⟩
        · right
          rcases hstatus with rfl | ⟨hcontra, -, -⟩
          · simp only [deliverStep, hcall]
            have hfirst : SinkProtected (log ++ [.encrypted .ok]) :=
              sinkProtected_of_no_push (by simpa using hnone)
            have happend := hfirst.append (by simp) events
            rw [List.append_assoc] at happend
            exact ⟨by simp, happend⟩
          · exact absurd hcontra hpending
    · left
      simp only [deliverStep, m.deliverNonBlocking_stops env hnew hencrypt hreach,
        List.append_nil]
      exact ⟨hnew, hencrypt, hnone⟩
  · right
    exact ⟨List.mem_append_left _ hencrypted, hprotected.append hencrypted _⟩

/-- In every run of `DeliverNonBlocking` calls in which each call that gets to
the encryption is answered with a ciphertext or a pending authentication, no
byte reaches the sink before a successful encryption. -/
theorem deliverNonBlocking_sink_protected (m : Message) (envs : List Env)
    (hencrypt : m.encrypt = true) (hnew : m.writeState = .new)
    (hrun : Lib.Run.Meets deliverStep
      (fun s env => s.1.ReachesEncryption env → s.1.Protects env) (m, []) envs) :
    SinkProtected (envs.foldl deliverStep (m, [])).2 := by
  have hstart : DeliveryInv (m, []) := Or.inl ⟨hnew, hencrypt, by simp⟩
  exact (hrun.invariant DeliveryInv deliverStep_inv hstart).sinkProtected

/-- The two calls of a delivery that first waits for a key exchange. -/
def keyExchange : Message × List Env :=
  let env : Env :=
    { handlePassing := false, expired := false, getKey := .ok, isAuthorized := true,
      authorizeMessage := .ok, peerSecure := true, peerAuthVersion := 0x30000,
      authFallbackVersion := 1, crypt := fun _ buf => (.ok, buf.map (· + 1)),
      requestAuthentication := .ok, sink := [⟨.ok, 3⟩] }
  ({ buf := [1, 2, 3], encrypt := true, authorizationChecked := false, authVersion := -1,
     hasDestination := true, handles := false, ttl := 0, writeState := .new, writePtr := 0,
     countWrite := 0 },
   [{ env with getKey := .busKeyUnavailable }, env])

theorem deliverNonBlocking_sink_protected_keyExchange :
    (keyExchange.2.foldl deliverStep (keyExchange.1, [])).2 =
        [.encrypted .busAuthenticationPending, .encrypted .ok, .pushed [2, 3, 4]] ∧
      SinkProtected (keyExchange.2.foldl deliverStep (keyExchange.1, [])).2 :=
  ⟨by decide, deliverNonBlocking_sink_protected keyExchange.1 keyExchange.2 rfl rfl
    ⟨fun _ => Or.inr (Or.inr ⟨by decide, rfl⟩), fun _ => Or.inl (by decide), trivial⟩⟩

/-- A method call to encrypt whose peer granted no right to it, in front of a
sink that takes everything. -/
def unauthorizedCall : Message × Env :=
  ({ buf := [1, 2, 3], encrypt := true, authorizationChecked := false, authVersion := -1,
     hasDestination := true, handles := false, ttl := 0, writeState := .new, writePtr := 0,
     countWrite := 0 },
   { handlePassing := false, expired := false, getKey := .ok, isAuthorized := false,
     authorizeMessage := .ok, peerSecure := true, peerAuthVersion := 0,
     authFallbackVersion := 1, crypt := fun _ buf => (.ok, buf),
     requestAuthentication := .ok, sink := [⟨.ok, 3⟩] })

theorem deliverNonBlocking_pushes_plaintext :
    unauthorizedCall.1.encrypt = true ∧ unauthorizedCall.1.writeState = .new ∧
      ([unauthorizedCall.2].foldl deliverStep (unauthorizedCall.1, [])).2 =
        [.encrypted .busNotAuthorized, .pushed [1, 2, 3]] ∧
      ¬ SinkProtected ([unauthorizedCall.2].foldl deliverStep (unauthorizedCall.1, [])).2 := by
  have hlog : ([unauthorizedCall.2].foldl deliverStep (unauthorizedCall.1, [])).2 =
      [.encrypted .busNotAuthorized, .pushed [1, 2, 3]] := by decide
  refine ⟨rfl, rfl, hlog, fun hprotected => ?_⟩
  exact absurd (hprotected [.encrypted .busNotAuthorized] [1, 2, 3] [] rfl) (by decide)

/-! ### The blocking call -/

/-- One call of `Deliver` in a run, with the log of everything before it. -/
def deliverCall (s : Message × List Event) (env : Env) : Message × List Event :=
  let (_, next, events) := s.1.deliver env
  (next, s.2 ++ events)

theorem Message.encryptMessage_pending
    (hrequest : env.requestAuthentication ≠ .busAuthenticationPending)
    (hpending : (m.encryptMessage env).1 = .busAuthenticationPending) :
    (m.encryptMessage env).2.encrypt = m.encrypt := by
  have hparts := m.encrypt_parts env
  unfold encryptMessage at hpending ⊢
  cases hsend : m.authorizeSend env with
  | mk sendStatus sent =>
    simp only [hsend] at hparts hpending ⊢
    generalize (if sendStatus = .ok then sent.cipher env else (sendStatus, sent)) = result
      at hparts hpending ⊢
    obtain ⟨-, hframe⟩ := hparts
    split_ifs at hpending ⊢ with hmissing
    · exact (hframe (by simp [hmissing]) (by simp [hmissing])).1
    · exact absurd hpending hrequest
    · have hstatus : result.1 = .busAuthenticationPending := hpending
      exact (hframe (by simp [hstatus]) (by simp [hstatus])).1

/-- A call for a message that is marked for encryption hands bytes on only behind a successful
encryption, and returns `ER_OK` without one only if the message stays marked. -/
theorem Message.deliver_cases (hencrypt : m.encrypt = true)
    (hrequest : env.requestAuthentication ≠ .busAuthenticationPending) :
    (∃ last events, (m.deliver env).2 = (last, .encrypted .ok :: events)) ∨
      (∀ bytes, .pushed bytes ∉ (m.deliver env).2.2) ∧
        ((m.deliver env).1 = .ok → (m.deliver env).2.1.encrypt = true) := by
  have hmarked : m.restart.encrypt = true := hencrypt
  have hstays := m.restart.encryptMessage_pending env hrequest
  unfold deliver
  dsimp only
  split_ifs with hempty hhandles hexpired hpending hok
  · exact .inr ⟨by simp, fun _ => hencrypt⟩
  · exact .inr ⟨by simp, fun _ => hencrypt⟩
  · exact .inr ⟨by simp, fun _ => hencrypt⟩
  · exact .inr ⟨by simp, fun _ => (hstays hpending).trans hencrypt⟩
  · exact .inl ⟨_, _, by rw [hok]⟩
  · exact .inr ⟨by simp, fun h => absurd h hok⟩

/-- Nothing was pushed and the message is marked, or it was encrypted before the first push. -/
def Guarded (s : Message × List Event) : Prop :=
  s.1.encrypt = true ∧ (∀ bytes, .pushed bytes ∉ s.2) ∨
    .encrypted .ok ∈ s.2 ∧ SinkProtected s.2

theorem Guarded.deliverCall {s : Message × List Event} {env : Env} (h : Guarded s)
    (hrequest : env.requestAuthentication ≠ .busAuthenticationPending) :
    SinkProtected (deliverCall s env).2 ∧
      ((s.1.deliver env).1 = .ok → Guarded (deliverCall s env)) := by
  rcases h with ⟨hencrypt, hnone⟩ | ⟨hencrypted, hprotected⟩
  · rcases s.1.deliver_cases env hencrypt hrequest with ⟨last, events, hcall⟩ | ⟨hfew, hstays⟩
    · have hfirst : SinkProtected (s.2 ++ [.encrypted .ok]) :=
        sinkProtected_of_no_push (by simpa using hnone)
      have happend := hfirst.append (by simp) events
      rw [List.append_assoc] at happend
      simp only [Delivery.deliverCall, hcall]
      exact ⟨happend, fun _ => .inr ⟨by simp, happend⟩⟩
    · have hnone' : ∀ bytes, .pushed bytes ∉ (Delivery.deliverCall s env).2 := fun bytes hmem =>
        (List.mem_append.mp hmem).elim (hnone bytes) (hfew bytes)
      exact ⟨sinkProtected_of_no_push hnone', fun hok => .inl ⟨hstays hok, hnone'⟩⟩
  · have happend := hprotected.append hencrypted (s.1.deliver env).2.2
    exact ⟨happend, fun _ => .inr ⟨List.mem_append_left _ hencrypted, happend⟩⟩

/-- In every run of `Deliver` calls each of which returned `ER_OK` before the next was made, no
byte of a message that is marked for encryption reaches the sink before a successful encryption,
however the last call ends. -/
theorem deliver_sink_protected (m : Message) (hencrypt : m.encrypt = true) (envs : List Env)
    (hrun : Lib.Run.Meets deliverCall (fun s env => (s.1.deliver env).1 = .ok ∧
      env.requestAuthentication ≠ .busAuthenticationPending) (m, []) envs) {last : Env}
    (hlast : last.requestAuthentication ≠ .busAuthenticationPending) :
    SinkProtected (deliverCall (envs.foldl deliverCall (m, [])) last).2 := by
  have hguarded := hrun.invariant Guarded (fun s env h henv => (h.deliverCall henv.2).2 henv.1)
    (.inl ⟨hencrypt, by simp⟩)
  exact (hguarded.deliverCall hlast).1

/-- The authentication is pending after the first call. -/
theorem deliver_sink_protected_keyExchange :
    (keyExchange.2.foldl deliverCall (keyExchange.1, [])).2 =
        [.encrypted .busAuthenticationPending, .encrypted .ok, .pushed [2, 3, 4]] ∧
      SinkProtected (keyExchange.2.foldl deliverCall (keyExchange.1, [])).2 :=
  ⟨by decide, deliver_sink_protected keyExchange.1 rfl (keyExchange.2.take 1) (by decide)
    (show keyExchange.2[1].requestAuthentication ≠ _ by decide)⟩

end AllJoyn.Delivery
