import Velcrux.Transfer.Upload

/-!
# A download from end to end

`client_download_stream_with_staging` on whatever a server sends, and
`server_download_session_with_compression`. The digest that the client returns is that of
VERIFY_RESULT; it never hashes what it has written.
-/

namespace Velcrux.Transfer

open Chunking Protocol State Storage Streams ByteFile

/-! ## Client -/

section Client

variable (H : HashFn) (Z : Compressor)

def downloadContent (hdr : DataFrameHeader) (payload : Bytes) : Except VelcruxError Bytes :=
  if hdr.flags.compressed then
    match decompressPayloadBounded Z payload maxChunkSize (some 500) with
    | .error e => .error (.protocol e)
    | .ok data => .ok data
  else .ok payload

/-- One round of the frame loop: `none` at the end of the stream, otherwise the offset and the bytes
to write and the rest of the stream. The seek or the write fails past the largest file offset. -/
def readDownloadFrame (buf : Bytes) : Except VelcruxError (Option ((ℕ × Bytes) × Bytes)) :=
  match readExact dataFrameHeaderLen buf with
  | none => .ok none
  | some (header, rest) =>
    match decodeDataFrameHeader header with
    | .error e => .error (.protocol e)
    | .ok hdr =>
      match readExact hdr.chunkLen rest with
      | none =>
        .error (protocolViolation "download: chunk payload shorter than declared (stream EOF)")
      | some (payload, rest) =>
        match downloadContent Z hdr payload with
        | .error e => .error e
        | .ok data =>
          if H data ≠ hdr.chunkHash then
            .error (.protocol (.malformed "download: chunk hash mismatch"))
          else if isizeMax < hdr.chunkOffset + data.length then .error .io
          else .ok (some ((hdr.chunkOffset, data), rest))

def readDownloadFrames : ℕ → Bytes → List (ℕ × Bytes) × Option VelcruxError
  | 0, _ => ([], none)
  | fuel + 1, buf =>
    match readDownloadFrame H Z buf with
    | .error e => ([], some e)
    | .ok none => ([], none)
    | .ok (some (p, rest)) =>
      let r := readDownloadFrames fuel rest
      (p :: r.1, r.2)

def readDownloadStream (transferId : TransferId) (stream : Bytes) :
    List (ℕ × Bytes) × Option VelcruxError :=
  match readExact dataPreambleLen stream with
  | none => ([], some (.protocol .empty))
  | some (pre, rest) =>
    match decodeDataPreamble pre with
    | .error e => ([], some (.protocol e))
    | .ok preamble =>
      if preamble.transferId ≠ transferId then
        ([], some (protocolViolation "download: transfer_id mismatch in preamble"))
      else readDownloadFrames H Z (rest.length + 1) rest

structure DownloadCall where
  transferId : TransferId
  existing : Option Bytes
  stagingPrepopulated : Bool
  parallelStreams : ℕ

/-- VERIFY_RESULT and COMMITTED; a frame that is neither, or does not decode, is `none`. -/
def downloadAwait (transferId : TransferId) : List (Option Reply) → Except VelcruxError Hash
  | some (.verifyResult tid ok computed) :: rest =>
    if tid ≠ transferId then
      .error (protocolViolation "download: VERIFY_RESULT transfer_id mismatch")
    else if !ok then .error (.protocol (.malformed "download: server reported hash mismatch"))
    else
      match rest with
      | some (.committed tid files) :: _ =>
        if tid ≠ transferId ∨ files ≠ 1 then
          .error (protocolViolation "download: COMMITTED transfer_id/files mismatch")
        else .ok computed
      | _ :: _ => .error (protocolViolation "download: expected COMMITTED")
      | [] => .error (.protocol .empty)
  | _ :: _ => .error (protocolViolation "download: expected VERIFY_RESULT")
  | [] => .error (.protocol .empty)

namespace DownloadCall

variable (c : DownloadCall)

def opened : Bytes := if c.stagingPrepopulated then c.existing.getD [] else []

def streams : ℕ := if 1 < c.parallelStreams then c.parallelStreams else 1

/-- `client_download_stream_with_staging` when the server opens `streams`, their writes take effect
in the order `order` and `replies` follow: the digest it returns and the file it leaves at
`local_path`. Fewer streams than expected end it with the error of the connection. -/
def run (streams : List Bytes) (order : List (ℕ × Bytes)) (replies : List (Option Reply)) :
    Except VelcruxError (Hash × Bytes) :=
  if streams.length ≠ c.streams then .error .io
  else
    match streams.findSome? fun st => (readDownloadStream H Z c.transferId st).2 with
    | some e => .error e
    | none =>
      match downloadAwait c.transferId replies with
      | .error e => .error e
      | .ok computed => .ok (computed, writeAll c.opened order)

def Order (streams : List Bytes) (order : List (ℕ × Bytes)) : Prop :=
  Merges (streams.map fun st => (readDownloadStream H Z c.transferId st).1) order

end DownloadCall

end Client

/-! ## Server -/

def statFileHash : Hash := .zero

structure DownloadSession where
  transferId : TransferId
  file : SourceFile
  fileHash : Hash
  skipBitmap : Option ChunkBitmap
  parallelStreams : ℕ
  streams_lt : parallelStreams < 256
  compression : Bool

def downloadReadSize : ℕ := 2 * 1024 * 1024

namespace DownloadSession

variable (s : DownloadSession)

def chunkSize : ℕ := if s.skipBitmap.isSome then deltaChunkSize else m3ChunkSize

def chunksToSend : List ℕ :=
  let total := divCeil s.file.size s.chunkSize
  match s.skipBitmap with
  | some bm => missingChunks bm total
  | none => List.range total

def fixedChunks : List (ℕ × Bytes) := s.chunksToSend.map (chunkAt s.file.bytes s.chunkSize)

def dataStreams (H : HashFn) (Z : Compressor) (sched : Schedule) : Except Failure (List Bytes) :=
  if 1 < s.parallelStreams then
    .ok ((List.range s.parallelStreams).map fun w =>
      streamPreamble s.transferId (w + 1) ++
        (sendChunks H Z s.compression .withDefaults
          (workerChunks s.fixedChunks sched.workers w)).flatten)
  else
    match s.skipBitmap with
    | some _ =>
      .ok [streamPreamble s.transferId 1 ++
        (sendChunks H Z s.compression .withDefaults s.fixedChunks).flatten]
    | none =>
      match chunkerLoop (createChunker .cdc .default) [] 0 sched.reads with
      | .error e => .error e
      | .ok items =>
        .ok [streamPreamble s.transferId 1 ++
          (sendChunks H Z s.compression .withDefaults items).flatten]

/-- The digest that VERIFY_RESULT reports: hashed on the way in the content-defined path, the one of
`stat` otherwise, and with several streams the file is hashed when `stat` has none. -/
def computedHash (H : HashFn) : Hash :=
  if 1 < s.parallelStreams then
    if s.fileHash ≠ .zero then s.fileHash else H s.file.bytes
  else
    match s.skipBitmap with
    | some _ => s.fileHash
    | none => H s.file.bytes

def finish (computed : Hash) : List ControlMsg → List Reply × Except VelcruxError Unit
  | .verify tid _ :: msgs =>
    if tid ≠ s.transferId then
      ([], .error (protocolViolation "server download: VERIFY transfer_id mismatch"))
    else
      let verifyResult := Reply.verifyResult s.transferId true computed
      match msgs with
      | .commit tid :: _ =>
        if tid ≠ s.transferId then
          ([verifyResult], .error (protocolViolation "server download: COMMIT transfer_id mismatch"))
        else ([verifyResult, .committed s.transferId 1], .ok ())
      | _ :: _ => ([verifyResult], .error (protocolViolation "server download: expected COMMIT"))
      | [] => ([verifyResult], .error (.protocol .empty))
  | _ :: _ => ([], .error (protocolViolation "server download: expected VERIFY"))
  | [] => ([], .error (.protocol .empty))

def replies (H : HashFn) : List (Option Reply) :=
  (s.finish (s.computedHash H) [.verify s.transferId .zero, .commit s.transferId]).1.map some

structure Possible (sched : Schedule) : Prop where
  reads : ∀ r ∈ sched.reads, r ≠ [] ∧ r.length ≤ downloadReadSize
  reads_flatten : sched.reads.flatten = s.file.bytes
  workers_lt : 1 < s.parallelStreams → ∀ w ∈ sched.workers, w < s.parallelStreams
  workers_length : 1 < s.parallelStreams → sched.workers.length = s.fixedChunks.length

def SkippedCorrect (staging : Bytes) : Prop :=
  ∀ bm, s.skipBitmap = some bm → ∀ i, i < s.file.size → i / deltaChunkSize ∈ bm.set →
    Agrees s.file.bytes staging i

end DownloadSession

/-! ## The contract -/

def ReportsItsHash (H : HashFn) (Z : Compressor) (c : DownloadCall) : Prop :=
  ∀ streams order replies h file, c.Order H Z streams order →
    c.run H Z streams order replies = .ok (h, file) → H file = h

structure HonestDownload (H : HashFn) (Z : Compressor) where
  session : DownloadSession
  call : DownloadCall
  sched : Schedule
  streams : List Bytes
  order : List (ℕ × Bytes)
  returned : Hash
  file : Bytes
  fileHash_eq : session.fileHash = statFileHash
  transferId_eq : call.transferId = session.transferId
  streams_eq : call.parallelStreams = session.parallelStreams
  possible : session.Possible sched
  sent : session.dataStreams H Z sched = .ok streams
  skipped : session.SkippedCorrect call.opened
  arrived : call.Order H Z streams order
  run_eq : call.run H Z streams order (session.replies H) = .ok (returned, file)

namespace HonestDownload

variable {H : HashFn} {Z : Compressor} (d : HonestDownload H Z)

def Truthful : Prop := H d.file = d.returned ∧ d.returned = H d.session.file.bytes

/-- When it is: the server does not answer with the digest of `stat`, and the staging file does not
reach past the end of the file, unless that goes unnoticed by the digest. -/
def Reliable : Prop :=
  (1 < d.session.parallelStreams ∨ d.session.skipBitmap = none ∨
    H d.session.file.bytes = .zero) ∧
  H (d.session.file.bytes ++ d.call.opened.drop d.session.file.size) = H d.session.file.bytes

end HonestDownload

end Velcrux.Transfer
