import Velcrux.Auth.Authorizer
import Velcrux.Wire.Frame

/-!
# The server side of a connection

`ServerConn::run`: the loop that takes a client from its HELLO over AUTH to the service. The answers
of the authenticator, of TLS and of the transport are inputs of a turn, and so are the calls of the
handlers.
-/

namespace Velcrux.Session

open Auth (Identity Op PermSet)
open Wire

inductive ServerState where
  | accepted
  | tlsHandshake
  | awaitHello
  | awaitAuth
  | serving
  | draining
  | closed
deriving DecidableEq

def ServerState.name : ServerState → String
  | .accepted => "ACCEPTED"
  | .tlsHandshake => "TLS_HANDSHAKE"
  | .awaitHello => "AWAIT_HELLO"
  | .awaitAuth => "AWAIT_AUTH"
  | .serving => "SERVING"
  | .draining => "DRAINING"
  | .closed => "CLOSED"

structure ConnConfig where
  serverCaps : Capabilities
  serverName : String
  maxAuthAttempts : ℕ
  peerIdentity : Option Identity

structure Conn where
  state : ServerState
  authAttempts : ℕ
  authenticatedIdentity : Option Identity

def Conn.start : Conn := ⟨.awaitHello, 0, none⟩

inductive HandlerCall where
  | check (op : Op) (path : String)
  | grantedPermissions
  | backend
  | stateStore
  | chunkStore
  | reply (m : Message) (requestId : UInt64)

inductive NextFrame where
  | failed (e : VelcruxError)
  | ended
  | frame (f : Frame)

/-- The inputs of one turn of the loop: whether the connection may stay on its path, the frame, whether
a reply could be written, what the authenticator and the TLS exporter answer, the permissions on
record, the time, and the calls of a handler. -/
structure Turn where
  migrationAllowed : Bool
  next : NextFrame
  written : Bool
  answer : Except String Identity
  exporter : Except String Unit
  permissions : PermSet
  nowMs : UInt64
  calls : List HandlerCall

inductive Credential where
  | peer (identity : Identity)
  | token (mechanism : UInt16) (token : Bytes)

inductive Action where
  | received (f : Frame)
  | authenticate (credential : Credential) (answer : Except String Identity)
  | refuseAuth (f : Frame)
  | check (identity : Identity) (op : Op) (path : String)
  | grantedPermissions (identity : Identity)
  | backend
  | stateStore
  | chunkStore
  | reply (m : Message) (requestId : UInt64)
  | close (code : ErrorCode) (reason : String)

inductive ConnResult where
  | ended (state : ServerState)
  | failed (e : Failure)

inductive Next where
  | goOn (c : Conn)
  | stop (r : ConnResult)

def Next.protocolError (e : ProtocolError) : Next := .stop (.failed (.error (.protocol e)))

def replyError (f : Frame) (code : ErrorCode) (detail : String) (after : List Action) (next : Next) :
    List Action × Next :=
  match ErrorMsg.new code detail with
  | .error e => ([], .stop (.failed e))
  | .ok m => (.reply (.error m) f.requestId :: after, next)

def outOfOrder (f : Frame) (code : ErrorCode) (detail closing : String) (e : ProtocolError) :
    List Action × Next :=
  replyError f code detail [.close code closing] (.protocolError e)

def packageVersion : String := "0.1.0"

/-! ## The states of the loop -/

variable (cfg : ConnConfig) (c : Conn) (t : Turn)

def awaitHello (f : Frame) : List Action × Next :=
  if f.typeByte ≠ 0x01 then
    outOfOrder f .protocolViolation "protocol violation: expected HELLO"
      "protocol violation: expected HELLO" (.invalidStateTransition "expected HELLO")
  else
    match Hello.decode.run f.payload with
    | .error e => ([], .protocolError e)
    | .ok hello =>
      let intersection := hello.capabilities.intersect cfg.serverCaps
      match intersection.validateIntersection with
      | .error s => replyError f .protocolVersionUnsupported s
          [.close .protocolVersionUnsupported "no capability intersection"] (.stop (.ended .closed))
      | .ok () =>
        let serverName := cfg.serverName
        let ack : HelloAck := ⟨protocolVersion, intersection, .default,
          s!"{serverName}/{packageVersion}"⟩
        ([.reply (.helloAck ack) f.requestId],
          if t.written then .goOn { c with state := .awaitAuth } else .stop (.failed (.error .io)))

def failedAttempt (f : Frame) (detail : String) : List Action × Next :=
  let attempts := c.authAttempts + 1
  if cfg.maxAuthAttempts ≤ attempts then
    replyError f .authFailed "maximum authentication attempts exceeded"
      [.close .authFailed "max auth attempts exceeded"] (.stop (.ended .closed))
  else replyError f .authFailed detail [] (.goOn { c with authAttempts := attempts })

def accepted (f : Frame) (identity : Identity) : List Action × Next :=
  ([.grantedPermissions identity,
      .reply (.authOk ⟨identity.name, t.permissions.bits⟩) f.requestId],
    if t.written then .goOn ⟨.serving, 0, some identity⟩ else .stop (.failed (.error .io)))

def after (before : List Action) (r : List Action × Next) : List Action × Next :=
  (before ++ r.1, r.2)

def awaitAuth (f : Frame) : List Action × Next :=
  if f.typeByte ≠ 0x03 then
    outOfOrder f .protocolViolation "protocol violation: expected AUTH"
      "protocol violation: expected AUTH" (.invalidStateTransition "expected AUTH")
  else
    match Auth.decode.run f.payload with
    | .error e => ([.refuseAuth f], .protocolError e)
    | .ok auth =>
      if auth.mechanism = authMechanismMtls then
        match cfg.peerIdentity with
        | none => ([.refuseAuth f], .protocolError (.invalidIdentity "no peer identity"))
        | some peer =>
          after [.authenticate (.peer peer) t.answer] <|
            match t.answer with
            | .ok identity => accepted t f identity
            | .error e => replyError f .authFailed s!"mTLS authentication failed: {e}"
                [.close .authFailed "auth failed"] (.stop (.ended .closed))
      else if auth.mechanism = authMechanismSshPubkey then
        match t.exporter with
        | .error e => after [.refuseAuth f] <| replyError f .authFailed
            s!"TLS exporter secret error: {e}" [.close .authFailed "exporter error"]
            (.stop (.ended .closed))
        | .ok () =>
          after [.authenticate (.token auth.mechanism auth.token) t.answer] <|
            match t.answer with
            | .ok identity => accepted t f identity
            | .error e => failedAttempt cfg c f s!"pubkey auth failed: {e}"
      else after [.refuseAuth f] (failedAttempt cfg c f "unsupported auth mechanism")

def HandlerCall.perform (identity : Identity) : HandlerCall → Action
  | .check op path => .check identity op path
  | .grantedPermissions => .grantedPermissions identity
  | .backend => .backend
  | .stateStore => .stateStore
  | .chunkStore => .chunkStore
  | .reply m requestId => .reply m requestId

def handledTypes : List UInt8 := [0x10, 0x19, 0x1C, 0x1E, 0x1B]

def transferTypes : List UInt8 := [0x17, 0x13, 0x14, 0x15, 0x30]

def serving (identity : Identity) (t : Turn) (f : Frame) : List Action × Next :=
  if f.typeByte = 0x06 then
    match Ping.decode.run f.payload with
    | .error e => ([], .protocolError e)
    | .ok ping => ([.reply (.pong ⟨ping.nonce, t.nowMs⟩) f.requestId],
        if t.written then .goOn c else .stop (.failed (.error .io)))
  else if f.typeByte = 0x07 then ([], .stop (.ended .closed))
  else if f.typeByte ∈ handledTypes then (t.calls.map (HandlerCall.perform identity), .goOn c)
  else if f.typeByte = 0x01 ∨ f.typeByte = 0x03 then
    outOfOrder f .protocolViolation "protocol violation: duplicate handshake in SERVING state"
      "protocol violation: duplicate handshake in SERVING state"
      (.invalidStateTransition "duplicate handshake in SERVING state")
  else if f.typeByte ∈ transferTypes then
    outOfOrder f .protocolViolation
      "protocol violation: transfer message without active transfer context"
      "protocol violation: unexpected transfer message"
      (.invalidStateTransition "unexpected transfer message in SERVING state")
  else
    outOfOrder f .unsupportedMessage "unsupported message" "unsupported message"
      (.unsupportedMessage f.typeByte)

def withFrame (k : Frame → List Action × Next) : List Action × Next :=
  match t.next with
  | .failed e => ([], .stop (.failed (.error e)))
  | .ended => ([], .stop (.ended c.state))
  | .frame f => after [.received f] (k f)

def turn : List Action × Next :=
  if ¬ t.migrationAllowed then
    ([.close .protocolViolation "connection migration rejected by policy"], .stop (.ended .closed))
  else
    match c.state with
    | .awaitHello => withFrame c t (awaitHello cfg c t)
    | .awaitAuth => withFrame c t (awaitAuth cfg c t)
    | .serving =>
      match c.authenticatedIdentity with
      | none => ([], .protocolError
          (.invalidStateTransition "SERVING without authenticated identity"))
      | some identity => withFrame c t (serving c identity t)
    | .closed => ([], .stop (.ended .closed))
    | .accepted | .tlsHandshake | .draining =>
      ([], .protocolError (.invalidStateTransition c.state.name))

def runFrom (cfg : ConnConfig) : Conn → List Turn → List Action
  | _, [] => []
  | c, t :: ts =>
    match turn cfg c t with
    | (actions, .stop _) => actions
    | (actions, .goOn c') => actions ++ runFrom cfg c' ts

def run (ts : List Turn) : List Action := runFrom cfg .start ts

/-! ## The contract -/

def handshakeReply : Message → Bool
  | .helloAck _ | .authOk _ | .error _ => true
  | _ => false

def Action.isService : Action → Bool
  | .check .. | .backend | .stateStore | .chunkStore => true
  | .reply m _ => !handshakeReply m
  | _ => false

def Action.authorizedFor : Action → Option Identity
  | .check identity _ _ | .grantedPermissions identity => some identity
  | _ => none

def Action.acceptedIdentity : Action → Option Identity
  | .authenticate _ (.ok identity) => some identity
  | _ => none

def Action.isAttempt : Action → Bool
  | .authenticate .. | .refuseAuth _ => true
  | _ => false

def ValidHello (f : Frame) : Prop :=
  f.typeByte = 0x01 ∧ ∃ hello, Hello.decode.run f.payload = .ok hello ∧
    (hello.capabilities.intersect cfg.serverCaps).validateIntersection = .ok ()

structure ServedAfterAuth (cfg : ConnConfig) (trace : List Action) : Prop where
  service : ∀ {pre a post}, trace = pre ++ a :: post → a.isService →
    ∃ pre1 f pre2 b pre3 identity, pre = pre1 ++ .received f :: (pre2 ++ b :: pre3) ∧
      ValidHello cfg f ∧ b.acceptedIdentity = some identity
  identity : ∀ {pre a post identity}, trace = pre ++ a :: post →
    a.authorizedFor = some identity → (∃ b ∈ pre, b.acceptedIdentity = some identity) ∧
      ∀ b ∈ trace, ∀ other, b.acceptedIdentity = some other → other = identity
  attempts : trace.countP Action.isAttempt ≤ max 1 cfg.maxAuthAttempts

end Velcrux.Session
