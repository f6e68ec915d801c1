import Velcrux.Wire.Basic

/-!
# Handshake and session messages

HELLO, HELLO_ACK, AUTH, AUTH_OK, PING, SESSION_INIT, BYE and ERROR (`protocol/message`,
`protocol/capabilities`, `protocol/error`).
-/

namespace Velcrux.Wire

open Decoding

structure Capabilities where
  bits : UInt32
deriving DecidableEq

def Capabilities.fromWire (bits : UInt32) : Capabilities := ⟨bits &&& 0xFFF⟩

def Capabilities.toWire (c : Capabilities) : UInt32 := c.bits &&& 0xFFF

inductive Capability where
  | fixedChunking
  | cdcChunking
  | blake3
deriving DecidableEq

def Capability.bit : Capability → UInt32
  | .fixedChunking => 0x001
  | .cdcChunking => 0x002
  | .blake3 => 0x004

def Capabilities.has (s : Capabilities) (c : Capability) : Bool := s.bits &&& c.bit ≠ 0

def Capabilities.intersect (s t : Capabilities) : Capabilities := ⟨s.bits &&& t.bits⟩

def Capabilities.validateIntersection (s : Capabilities) : Except String Unit :=
  if ¬ s.has .blake3 then .error "intersection lacks mandatory BLAKE3"
  else if ¬ s.has .fixedChunking ∧ ¬ s.has .cdcChunking then
    .error "intersection lacks any chunking mode"
  else .ok ()

structure Hello where
  versions : Bytes
  capabilities : Capabilities
  agent : String
deriving DecidableEq

namespace Hello

def encode (m : Hello) : Except Failure Bytes := do
  checkField (0xFFFF < (utf8 m.agent).length) "agent too long"
  checkField (0xFF < m.versions.length) "too many versions"
  payload [[UInt8.ofNat m.versions.length], m.versions, u32Field m.capabilities.toWire,
    strField m.agent]

def decode : PayloadDecoder Hello := do
  need 1 (.malformed "HELLO: empty")
  let count ← u8
  need count.toNat (.malformed "HELLO: truncated versions")
  need (count.toNat + 4) (.malformed "HELLO: truncated capabilities")
  let versions ← take count.toNat
  let capsRaw ← u32
  let agent ← readStr "HELLO: agent_len overflow" "HELLO: truncated agent" "HELLO: agent not UTF-8"
  return ⟨versions, .fromWire capsRaw, agent⟩

end Hello

structure Limits where
  maxMessageSize : UInt64
  maxChunkSize : UInt64
  maxManifestEntries : UInt64
  maxConcurrentStreams : UInt32
deriving DecidableEq

def Limits.default : Limits := ⟨1024 * 1024, 4 * 1024 * 1024, 50000000, 32⟩

structure HelloAck where
  version : UInt8
  capabilities : Capabilities
  limits : Limits
  agent : String
deriving DecidableEq

namespace HelloAck

def encode (m : HelloAck) : Except Failure Bytes := do
  checkField (0xFFFF < (utf8 m.agent).length) "agent too long"
  payload [[m.version], u32Field m.capabilities.toWire, u64Field m.limits.maxMessageSize,
    u64Field m.limits.maxChunkSize, u64Field m.limits.maxManifestEntries,
    u32Field m.limits.maxConcurrentStreams, strField m.agent]

def decode : PayloadDecoder HelloAck := do
  need (1 + 4 + 8 * 3 + 4) (.malformed "HELLO_ACK: truncated")
  let version ← u8
  let capsRaw ← u32
  let maxMessageSize ← u64
  let maxChunkSize ← u64
  let maxManifestEntries ← u64
  let maxConcurrentStreams ← u32
  let agent ← readStr "HELLO_ACK: agent_len overflow" "HELLO_ACK: truncated agent"
    "HELLO_ACK: agent not UTF-8"
  return ⟨version, .fromWire capsRaw,
    ⟨maxMessageSize, maxChunkSize, maxManifestEntries, maxConcurrentStreams⟩, agent⟩

end HelloAck

def authMechanismMtls : UInt16 := 0

def authMechanismSshPubkey : UInt16 := 1

def maxAuthToken : ℕ := 4096

structure Auth where
  mechanism : UInt16
  token : Bytes
deriving DecidableEq

namespace Auth

def encode (m : Auth) : Except Failure Bytes := do
  checkField (maxAuthToken < m.token.length) "AUTH: token too long"
  payload [u16Field m.mechanism, u16Field 0, u32Field (UInt32.ofNat m.token.length), m.token]

def decode : PayloadDecoder Auth := do
  need 8 (.malformed "AUTH: truncated")
  let mechanism ← u16
  skip 2
  let tokenLen ← u32
  refuse (maxAuthToken < tokenLen.toNat) (.malformed "AUTH: token too long")
  need tokenLen.toNat (.malformed "AUTH: truncated token")
  refuse (mechanism ≠ authMechanismMtls ∧ mechanism ≠ authMechanismSshPubkey)
    (.malformed "AUTH: unknown mechanism")
  let token ← take tokenLen.toNat
  return ⟨mechanism, token⟩

end Auth

def maxIdentityLen : ℕ := 255

structure AuthOk where
  identity : String
  permissions : UInt64
deriving DecidableEq

namespace AuthOk

def encode (m : AuthOk) : Except Failure Bytes := do
  checkField (maxIdentityLen < (utf8 m.identity).length) "AUTH_OK: identity too long"
  payload [strField m.identity, u64Field m.permissions]

def decode : PayloadDecoder AuthOk := do
  need 1 (.malformed "AUTH_OK: empty")
  let n ← varint
  refuse (maxIdentityLen < n) (.malformed "AUTH_OK: identity too long")
  checkedAdd n (.malformed "AUTH_OK: identity_len overflow")
  checkedAdd (n + 8) (.malformed "AUTH_OK: length overflow")
  need (n + 8) (.malformed "AUTH_OK: truncated")
  let identity ← readUtf8 n "AUTH_OK: identity not UTF-8"
  let permissions ← u64
  return ⟨identity, permissions⟩

end AuthOk

structure Ping where
  nonce : UInt64
  senderTsMs : UInt64
deriving DecidableEq

namespace Ping

def encode (m : Ping) : Except Failure Bytes := payload [u64Field m.nonce, u64Field m.senderTsMs]

def decode : PayloadDecoder Ping := do
  need 16 (.malformed "PING: truncated")
  let nonce ← u64
  let senderTsMs ← u64
  return ⟨nonce, senderTsMs⟩

end Ping

structure SessionOptions where
  bandwidthBps : UInt64
  priority : UInt16
deriving DecidableEq

namespace SessionOptions

def encode (m : SessionOptions) : Except Failure Bytes :=
  payload [u64Field m.bandwidthBps, u16Field m.priority]

def decode : PayloadDecoder SessionOptions := do
  need 10 (.malformed "SESSION_INIT: truncated")
  let bandwidthBps ← u64
  let priority ← u16
  return ⟨bandwidthBps, priority⟩

end SessionOptions

structure Bye where
  code : UInt32
deriving DecidableEq

namespace Bye

def encode (m : Bye) : Except Failure Bytes := payload [u32Field m.code]

def decode : PayloadDecoder Bye := do
  need 4 (.malformed "BYE: truncated")
  let code ← u32
  return ⟨code⟩

end Bye

inductive ErrorCode where
  | authFailed
  | permissionDenied
  | protocolVersionUnsupported
  | protocolViolation
  | unsupportedMessage
  | fileNotFound
  | invalidPath
  | transferNotFound
  | invalidManifest
  | chunkNotFound
  | checksumMismatch
  | partialWrite
  | resourceLimit
  | serverBusy
  | diskFull
  | quotaExceeded
  | transferCancelled
  | networkError
  | internalError
deriving DecidableEq

def ErrorCode.toWire : ErrorCode → UInt32
  | .authFailed => 1000
  | .permissionDenied => 1001
  | .protocolVersionUnsupported => 1002
  | .protocolViolation => 1003
  | .unsupportedMessage => 1004
  | .fileNotFound => 2000
  | .invalidPath => 2001
  | .transferNotFound => 2002
  | .invalidManifest => 2003
  | .chunkNotFound => 2004
  | .checksumMismatch => 3000
  | .partialWrite => 3001
  | .resourceLimit => 4000
  | .serverBusy => 4001
  | .diskFull => 4002
  | .quotaExceeded => 4003
  | .transferCancelled => 5000
  | .networkError => 5001
  | .internalError => 5002

def ErrorCode.fromWire (code : UInt32) : ErrorCode :=
  match code.toNat with
  | 1000 => .authFailed
  | 1001 => .permissionDenied
  | 1002 => .protocolVersionUnsupported
  | 1003 => .protocolViolation
  | 1004 => .unsupportedMessage
  | 2000 => .fileNotFound
  | 2001 => .invalidPath
  | 2002 => .transferNotFound
  | 2003 => .invalidManifest
  | 2004 => .chunkNotFound
  | 3000 => .checksumMismatch
  | 3001 => .partialWrite
  | 4000 => .resourceLimit
  | 4001 => .serverBusy
  | 4002 => .diskFull
  | 4003 => .quotaExceeded
  | 5000 => .transferCancelled
  | 5001 => .networkError
  | _ => .internalError

def ErrorCode.retryable : ErrorCode → Bool
  | .chunkNotFound | .checksumMismatch | .partialWrite | .resourceLimit | .serverBusy | .diskFull
  | .networkError | .internalError => true
  | _ => false

def maxErrorDetail : ℕ := 256

def firstBytes : ℕ → List Char → Option (List Char)
  | 0, _ => some []
  | _, [] => some []
  | n + 1, c :: cs =>
    if c.utf8Size ≤ n + 1 then (firstBytes (n + 1 - c.utf8Size) cs).map (c :: ·) else none

structure ErrorMsg where
  code : ErrorCode
  retryable : Bool
  detail : String
deriving DecidableEq

namespace ErrorMsg

/-- `ErrorMsg::new`. A detail over the limit is cut, and `String::truncate` panics inside a
character. -/
def new (code : ErrorCode) (detail : String) : Except Failure ErrorMsg :=
  if detail.utf8ByteSize ≤ maxErrorDetail then .ok ⟨code, code.retryable, detail⟩
  else
    match firstBytes maxErrorDetail detail.toList with
    | some cut => .ok ⟨code, code.retryable, String.ofList cut⟩
    | none => .error (.panic "assertion failed: self.is_char_boundary(new_len)")

def encode (m : ErrorMsg) : Except Failure Bytes :=
  payload [u32Field m.code.toWire, flagField m.retryable, strField m.detail]

def decode : PayloadDecoder ErrorMsg := do
  need (4 + 1) (.malformed "ERROR: truncated header")
  let code ← u32
  let retryable ← readFlag "ERROR: retryable not 0/1"
  let detail ← readStr "ERROR: detail_len overflow" "ERROR: truncated detail" "ERROR: detail not UTF-8"
  return ⟨.fromWire code, retryable, detail⟩

end ErrorMsg

end Velcrux.Wire
