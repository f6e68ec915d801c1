import Velcrux.Protocol.DataFrame
import Velcrux.State.Bitmap
import Velcrux.Storage.Staging

/-!
# Receiving an upload

The receive side of `server_upload_session_with_limits`: a chunk that passes its checks is written
at its offset unless the slot it starts in is already marked complete. Parallel streams share the
staging file and the bitmap, so chunks of different streams take effect in any order.
-/

namespace Velcrux.Transfer

open Protocol State ByteFile

def m3ChunkSize : ℕ := 1024 * 1024

def deltaChunkSize : ℕ := 64 * 1024

structure ReceivedChunk where
  offset : ℕ
  chunkLen : ℕ
  isHole : Bool
  data : Bytes
deriving DecidableEq

def readExact (n : ℕ) (buf : Bytes) : Option (Bytes × Bytes) :=
  if buf.length < n then none else some (buf.take n, buf.drop n)

def payloadCutOff : String := "upload: chunk payload shorter than declared (stream EOF)"

variable (H : HashFn) (Z : Compressor)

def chunkContent (hdr : DataFrameHeader) (payload : Bytes) : Except VelcruxError (Bytes × Hash) :=
  if hdr.flags.isHole then .ok ([], H.ofZeros hdr.chunkLen)
  else if hdr.flags.compressed then
    match decompressPayloadBounded Z payload maxChunkSize (some 500) with
    | .error e => .error (.protocol e)
    | .ok data => .ok (data, H data)
  else .ok (payload, H payload)

/-- One round of the frame loop up to the hash check: `none` at the end of the stream, otherwise the
chunk and the rest of the stream. -/
def readFrame (buf : Bytes) : Except VelcruxError (Option (ReceivedChunk × Bytes)) :=
  match readExact dataFrameHeaderLen buf with
  | none => .ok none
  | some (header, rest) =>
    match decodeDataFrameHeader header with
    | .error e => .error (.protocol e)
    | .ok hdr =>
      let payloadLen := if hdr.flags.isHole then 0 else hdr.chunkLen
      match readExact payloadLen rest with
      | none => .error (protocolViolation payloadCutOff)
      | some (payload, rest) =>
        match chunkContent H Z hdr payload with
        | .error e => .error e
        | .ok (data, computed) =>
          if computed ≠ hdr.chunkHash then
            .error (.protocol (.malformed "upload: chunk hash mismatch"))
          else .ok (some (⟨hdr.chunkOffset, hdr.chunkLen, hdr.flags.isHole, data⟩, rest))

/-- The frame loop of one stream: the chunks it delivers in order, and the error it ends with, if
it does not end cleanly. A frame takes at least its header off the stream. -/
def readFrames : ℕ → Bytes → List ReceivedChunk × Option VelcruxError
  | 0, _ => ([], none)
  | fuel + 1, buf =>
    match readFrame H Z buf with
    | .error e => ([], some e)
    | .ok none => ([], none)
    | .ok (some (c, rest)) =>
      let r := readFrames fuel rest
      (c :: r.1, r.2)

def readPreamble (transferId : TransferId) (stream : Bytes) : Except VelcruxError Bytes :=
  match readExact dataPreambleLen stream with
  | none => .error (.protocol .empty)
  | some (pre, rest) =>
    match decodeDataPreamble pre with
    | .error e => .error (.protocol e)
    | .ok preamble =>
      if preamble.transferId ≠ transferId then
        .error (protocolViolation "upload: transfer_id mismatch in preamble")
      else .ok rest

def readDataStream (transferId : TransferId) (stream : Bytes) :
    List ReceivedChunk × Option VelcruxError :=
  match readPreamble transferId stream with
  | .error e => ([], some e)
  | .ok rest => readFrames H Z (rest.length + 1) rest

structure Receiver where
  staging : Bytes
  bitmap : ChunkBitmap
deriving DecidableEq

/-- A checked chunk takes effect. With a declared hash a chunk whose slot is marked is dropped, and
a chunk that is taken marks its slot; a streaming upload (no declared hash) takes every chunk. -/
def receiveChunk (chunkSize : ℕ) (isStreaming : Bool) (r : Receiver) (c : ReceivedChunk) :
    Receiver :=
  let chunkIndex := c.offset / chunkSize
  if isStreaming || !r.bitmap.contains chunkIndex then
    { staging := if c.isHole then r.staging else writeAt r.staging c.offset c.data
      bitmap := if isStreaming then r.bitmap else r.bitmap.markComplete chunkIndex c.chunkLen }
  else r

def receiveAll (chunkSize : ℕ) (isStreaming : Bool) (r : Receiver) (cs : List ReceivedChunk) :
    Receiver :=
  cs.foldl (receiveChunk chunkSize isStreaming) r

end Velcrux.Transfer
