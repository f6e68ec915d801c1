import Velcrux.Protocol.Compression
import Velcrux.Wire.Message

/-!
# Control frames

`encode_message_compressed` and `read_frame` (`session`), `encode_frame` and `decode_frame`
(`protocol/frame`).
-/

namespace Velcrux.Wire

open Varint LittleEndian Protocol

def protocolVersion : UInt8 := 1

def flagsNone : UInt16 := 0

def flagsCompressed : UInt16 := 2

structure Frame where
  version : UInt8
  typeByte : UInt8
  flags : UInt16
  length : ℕ
  requestId : UInt64
  payload : Bytes
deriving DecidableEq

/-- The limit on the size of a payload is a check of the reader only. -/
def encodeFrame (typeByte : UInt8) (flags : UInt16) (requestId : UInt64) (payload : Bytes) : Bytes :=
  [protocolVersion, typeByte] ++ u16Field flags ++ encodeVarint payload.length ++
    u64Field requestId ++ payload

variable (Z : Compressor)

/-- The zstd frame a payload is sent in: `none` when it is sent as it is. -/
def sentCompressed (enableCompression : Bool) (bytes : Bytes) : Option Bytes :=
  if enableCompression then compressIfBeneficial Z bytes defaultMinSavings else none

def encodeMessageCompressed (m : Message) (requestId : UInt64)
    (enableCompression : Bool) : Except Failure Bytes := do
  let (typeByte, bytes) ← m.encode
  let out :=
    match sentCompressed Z enableCompression bytes with
    | some z => encodeFrame typeByte flagsCompressed requestId z
    | none => encodeFrame typeByte flagsNone requestId bytes
  if isizeMax < out.length then .error (.panic "capacity overflow") else .ok out

def decodeFrame (buf : Bytes) : Except ProtocolError Frame :=
  if buf.length < 4 then .error .empty
  else
    match readVarint (buf.drop 4) with
    | .error e => .error e
    | .ok (length, consumed) =>
      let headerLen := 4 + consumed + 8
      if buf.length < headerLen then .error .empty
      else if maxMessageSize < length then .error (.frameTooLarge length maxMessageSize)
      else if buf.length < headerLen + length then .error .empty
      else
        let version := buf.headD 0
        if version ≠ protocolVersion then .error (.versionMismatch version protocolVersion)
        else .ok {
          version
          typeByte := (buf.drop 1).headD 0
          flags := UInt16.ofNat (decodeLE ((buf.drop 2).take 2))
          length
          requestId := UInt64.ofNat (decodeLE ((buf.drop (4 + consumed)).take 8))
          payload := (buf.drop headerLen).take length }

def headerSizeFor (length : ℕ) : ℕ := 4 + varintLen length + 8

def decodeFrames (buf : Bytes) : Except ProtocolError (List Frame) :=
  if buf = [] then .ok []
  else
    match decodeFrame buf with
    | .error e => .error e
    | .ok f => (decodeFrames (buf.drop (headerSizeFor f.length + f.length))).map (f :: ·)
termination_by buf.length
decreasing_by
  have := List.length_pos_iff.2 ‹buf ≠ []›
  simp [headerSizeFor]
  omega

def Frame.encode (f : Frame) : Bytes := encodeFrame f.typeByte f.flags f.requestId f.payload

structure Frame.Sendable (f : Frame) : Prop where
  version_eq : f.version = protocolVersion
  length_eq : f.length = f.payload.length
  length_le : f.length ≤ maxMessageSize

/-- The loop of `read_frame` over the bytes of the length: what has been read, and the rest of the
stream; `none` at the end of it. `last` is the byte read last, `n` their number. -/
def readLength (buf : Bytes) (last : UInt8) (n : ℕ) :
    Bytes → Except VelcruxError (Option (Bytes × Bytes))
  | [] => if last.toNat < 0x80 then .ok (some (buf, [])) else .ok none
  | b :: stream =>
    if last.toNat < 0x80 then .ok (some (buf, b :: stream))
    else if 10 < n + 1 then .error (.protocol .varintOverflow)
    else readLength (buf ++ [b]) b (n + 1) stream

def framePayload (frame : Frame) : Except ProtocolError Bytes :=
  if frame.flags &&& 2 ≠ 0 then
    decompressPayloadBounded Z frame.payload maxBatchDecompressedBytes (some 500)
  else .ok frame.payload

def readFrame (stream : Bytes) : Except VelcruxError (Option (Frame × Bytes)) :=
  if stream.length < 5 then .ok none
  else
    match readLength (stream.take 5) ((stream.drop 4).headD 0) 1 (stream.drop 5) with
    | .error e => .error e
    | .ok none => .ok none
    | .ok (some (header, stream)) =>
      match readVarint (header.drop 4) with
      | .error e => .error (.protocol e)
      | .ok (declared, _) =>
        if stream.length < 8 then .ok none
        else if maxMessageSize < declared then
          .error (.protocol (.frameTooLarge declared maxMessageSize))
        else if (stream.drop 8).length < declared then .ok none
        else
          match decodeFrame (header ++ stream.take (8 + declared)) with
          | .error e => .error (.protocol e)
          | .ok frame =>
            match framePayload Z frame with
            | .error e => .error (.protocol e)
            | .ok bytes =>
              .ok (some ({ frame with length := bytes.length, payload := bytes },
                stream.drop (8 + declared)))

def strSize (s : String) : ℕ := varintLen (utf8 s).length + (utf8 s).length

def indicesSize (indices : List UInt64) : ℕ :=
  varintLen indices.length + (indices.map fun i => varintLen i.toNat).sum

def StatResult.size (m : StatResult) : ℕ :=
  58 + strSize m.status + strSize m.direction + strSize m.remotePath

def Message.size : Message → ℕ
  | .hello m => 5 + m.versions.length + strSize m.agent
  | .helloAck m => 33 + strSize m.agent
  | .auth m => 8 + m.token.length
  | .authOk m => 8 + strSize m.identity
  | .ping _ => 16
  | .pong _ => 16
  | .sessionInit _ => 10
  | .bye _ => 4
  | .error m => 5 + strSize m.detail
  | .transferCreate m => 48 + strSize m.srcPath + strSize m.dstPath + strSize m.idempotencyKey
  | .transferCreated _ => 32
  | .transferPlan _ => 40
  | .transferBegin m => if 1 < m.streams then 17 else 16
  | .verify _ => 48
  | .verifyResult _ => 56
  | .commit _ => 16
  | .committed _ => 20
  | .checkpoint m => 40 + indicesSize m.completedChunks
  | .resume m => 16 + strSize m.idempotencyKey
  | .resumeState m => 72 + strSize m.stagingRelpath + indicesSize m.completedChunks
  | .cancel _ => 20
  | .stat _ => 16
  | .statResult m => m.size
  | .list m => strSize m.urlPrefix
  | .listResult m =>
    varintLen m.entries.length + (m.entries.map fun e => varintLen e.size + e.size).sum
  | .manifestBegin _ => 72
  | .manifestBatch m => 12 + m.compressedPayload.length
  | .manifestEnd _ => 32
  | .inventoryHint m => 21 + m.bitset.length
  | .chunkQuery m => 24 + varintLen m.chunkHashes.length + 32 * m.chunkHashes.length
  | .chunkResponse m => 32 + m.rleBitmap.length

def WithinLimits (size : ℕ) : Option Bytes → Prop
  | none => size ≤ maxMessageSize
  | some z => z.length ≤ maxMessageSize ∧ size ≤ maxBatchDecompressedBytes ∧
    (size ≤ 64 * 1024 ∨ size ≤ z.length * 500)

/-- Whatever follows on the stream, the reader returns a frame with the type of the message, the
request id and a payload that decodes to the same as the message's own. -/
def Receivable (m : Message) (requestId : UInt64) (buf : Bytes) : Prop :=
  ∀ typeByte bytes, m.encode = .ok (typeByte, bytes) → ∀ later, ∃ frame,
    readFrame Z (buf ++ later) = .ok (some (frame, later)) ∧ frame.typeByte = typeByte ∧
      frame.requestId = requestId ∧
      Message.decode frame.typeByte frame.payload = Message.decode typeByte bytes

end Velcrux.Wire
