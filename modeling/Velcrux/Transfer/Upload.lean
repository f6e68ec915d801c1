import Velcrux.Foundations.Streams
import Velcrux.Transfer.Send

/-!
# An upload from end to end

The rest of `server_upload_session_with_limits` and `client_upload_stream`: opening the staging
file, the VERIFY / COMMIT exchange and the rename.
-/

namespace Velcrux.Transfer

open Protocol State Storage Streams

/-- Control messages as decoded; `other` is anything else. -/
inductive ControlMsg where
  | checkpoint (bytesTransferred : Option ℕ)
  | verify (transferId : TransferId) (expectedHash : Hash)
  | commit (transferId : TransferId)
  | other
deriving DecidableEq

inductive Reply where
  | verifyResult (transferId : TransferId) (ok : Bool) (computedHash : Hash)
  | committed (transferId : TransferId) (files : ℕ)
deriving DecidableEq

/-! ## Server -/

def awaitVerify : List ControlMsg →
    Except VelcruxError ((TransferId × Hash) × List ControlMsg)
  | [] => .error (.protocol .empty)
  | .checkpoint _ :: ms => awaitVerify ms
  | .verify tid hash :: ms => .ok ((tid, hash), ms)
  | _ :: _ => .error (protocolViolation "server: expected VERIFY")

def awaitCommit (transferId : TransferId) : List ControlMsg → Except VelcruxError Unit
  | [] => .error (.protocol .empty)
  | .commit tid :: _ =>
    if tid ≠ transferId then .error (protocolViolation "server: COMMIT transfer_id mismatch")
    else .ok ()
  | _ :: _ => .error (protocolViolation "server: expected COMMIT")

structure UploadOutcome where
  staged : Option Bytes
  replies : List Reply
  destination : Option Bytes
  result : Except VelcruxError Hash

def verifyOk (expectedHash computed verifyHash : Hash) : Bool :=
  if expectedHash ≠ .zero then computed = expectedHash else computed = verifyHash

def finishUpload (H : HashFn) (transferId : TransferId) (expectedHash : Hash) (staging : Bytes)
    (msgs : List ControlMsg) : UploadOutcome :=
  let computed := H staging
  match awaitVerify msgs with
  | .error e => ⟨some staging, [], none, .error e⟩
  | .ok ((tid, hash), msgs) =>
    if tid ≠ transferId ∨ (expectedHash ≠ .zero ∧ hash ≠ expectedHash) then
      ⟨some staging, [], none,
        .error (protocolViolation "server: VERIFY transfer_id/hash mismatch")⟩
    else
      let ok := verifyOk expectedHash computed hash
      let verifyResult := Reply.verifyResult transferId ok computed
      if !ok then
        ⟨some staging, [verifyResult], none,
          .error (.protocol (.malformed "server: hash mismatch on verify"))⟩
      else
        match awaitCommit transferId msgs with
        | .error e => ⟨some staging, [verifyResult], none, .error e⟩
        | .ok () =>
          ⟨some staging, [verifyResult, .committed transferId 1], some staging, .ok computed⟩

/-- The arguments of `server_upload_session_with_limits`, with the state it finds: the backend's
options and free space, the staging file of an earlier session and the stored bitmap. -/
structure UploadSession where
  backend : LocalBackend
  avail : Option ℕ
  existing : Option Bytes
  storedBitmap : ChunkBitmap
  resumed : Bool
  transferId : TransferId
  expectedSize : ℕ
  expectedHash : Hash
  initialBitmap : Option ChunkBitmap
  parallelStreams : ℕ

namespace UploadSession

variable (s : UploadSession)

def startBitmap : ChunkBitmap :=
  match s.initialBitmap with
  | some bm => bm
  | none => if s.resumed then s.storedBitmap else .new

def chunkSize : ℕ := if s.initialBitmap.isSome then deltaChunkSize else m3ChunkSize

def isStreaming : Bool := s.expectedHash = .zero

def openStaging (streams : List Bytes) : Except VelcruxError Bytes :=
  let opened :=
    s.backend.openStagingResumable s.avail s.existing s.expectedSize s.resumed
  if 1 < s.parallelStreams then opened
  else
    match readPreamble s.transferId (streams.headD []) with
    | .error e => .error e
    | .ok _ => opened

/-- The session on the given data streams, when their chunks take effect in the order `order`. A
stream that ends with an error ends the session before the staging file is hashed. -/
def run (H : HashFn) (Z : Compressor) (streams : List Bytes) (order : List ReceivedChunk)
    (msgs : List ControlMsg) : UploadOutcome :=
  match s.openStaging streams with
  | .error e => ⟨none, [], none, .error e⟩
  | .ok content =>
    match streams.findSome? fun st => (readDataStream H Z s.transferId st).2 with
    | some e => ⟨none, [], none, .error e⟩
    | none =>
      let r := receiveAll s.chunkSize s.isStreaming ⟨content, s.startBitmap⟩ order
      finishUpload H s.transferId s.expectedHash r.staging msgs

def Order (H : HashFn) (Z : Compressor) (streams : List Bytes) (order : List ReceivedChunk) :
    Prop :=
  Merges (streams.map fun st => (readDataStream H Z s.transferId st).1) order

end UploadSession

end Velcrux.Transfer
