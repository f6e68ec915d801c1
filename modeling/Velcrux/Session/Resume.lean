import Velcrux.Session.Delta
import Velcrux.Transfer.ClientCut
import Velcrux.Transfer.Upload

/-!
# Interrupted uploads and their resumption

One transfer over several sessions, each started by TRANSFER_CREATE or by RESUME and cut off after
some of its frames took effect. The bitmap has no unit: a delta session files chunks under 64 KiB
slots, the others under 1 MiB slots.
-/

namespace Velcrux.Transfer

open Protocol State

namespace UploadSession

variable (s : UploadSession)

def receive (content : Bytes) (cs : List ReceivedChunk) : Receiver :=
  receiveAll s.chunkSize s.isStreaming ⟨content, s.startBitmap⟩ cs

/-- What a session leaves of the staging file and the stored bitmap when it is cut off; the flag says
whether it stored a bitmap. A single stream is checkpointed after any of its frames. Parallel streams
are not, but once all streams have ended cleanly the bitmap is stored in either case. -/
inductive Leaves (H : HashFn) (Z : Compressor) (streams : List Bytes) :
    Bool → Option Bytes → ChunkBitmap → Prop
  | unopened : Leaves H Z streams false s.existing s.storedBitmap
  | received {content : Bytes} {order : List ReceivedChunk} (k : ℕ)
      (hopen : s.openStaging streams = .ok content) (hord : s.Order H Z streams order) :
      Leaves H Z streams false (some (s.receive content (order.take k)).staging) s.storedBitmap
  | checkpointed {content : Bytes} {order : List ReceivedChunk} (j k : ℕ)
      (hopen : s.openStaging streams = .ok content) (hord : s.Order H Z streams order)
      (hsingle : s.parallelStreams ≤ 1) (hpos : 0 < j) (hle : j ≤ k) :
      Leaves H Z streams true (some (s.receive content (order.take k)).staging)
        (s.receive content (order.take j)).bitmap
  | ended {content : Bytes} {order : List ReceivedChunk}
      (hopen : s.openStaging streams = .ok content) (hord : s.Order H Z streams order)
      (hclean : ∀ st ∈ streams, (readDataStream H Z s.transferId st).2 = none) :
      Leaves H Z streams true (some (s.receive content order).staging)
        (s.receive content order).bitmap

end UploadSession

end Velcrux.Transfer

namespace Velcrux.Session

open Protocol State Storage Transfer ByteFile

/-- What survives is the staging file and the bitmap that was stored last. -/
structure Remains where
  known : Bool
  staging : Option Bytes
  stored : ChunkBitmap

def Remains.start : Remains := ⟨false, none, .new⟩

structure TransferEnv where
  backend : LocalBackend
  transferId : TransferId

inductive Attempt where
  | create (cfg : PipelineConfig)
  | delta (src : DeltaSource) (useDelta : Bool) (parallelStreams : ℕ) (compression : Bool)
  | resume (parallelStreams : ℕ) (compression : Bool)

namespace Attempt

variable (H : HashFn) (file : SourceFile) (st : Remains)

def bitmap : Attempt → ChunkBitmap
  | .create _ => .new
  | .delta src useDelta _ _ =>
    clientBitmap file
      (answerQuery src (src.inventory H) file.size 0 (clientQuery H file useDelta)).haveBits
  | .resume _ _ => st.stored

def config : Attempt → PipelineConfig
  | .create cfg => cfg
  | .delta src useDelta parallelStreams compression =>
    uploadConfig parallelStreams compression
      (bitmap H file st (.delta src useDelta parallelStreams compression))
  | .resume parallelStreams compression => cliConfig parallelStreams compression

def begun : Attempt → Remains
  | .create _ => { st with known := true }
  | .delta src useDelta _ _ =>
    ⟨true, some (prestageQuery H src file.size (clientQuery H file useDelta)).staging, st.stored⟩
  | .resume _ _ => st

def initialBitmap : Attempt → Option ChunkBitmap
  | .create _ => none
  | .delta src useDelta _ _ =>
    some (prestageQuery H src file.size (clientQuery H file useDelta)).bitmap
  | .resume _ _ => none

def resumed : Attempt → Bool
  | .create _ => st.known
  | .delta .. => true
  | .resume .. => true

def session (env : TransferEnv) (avail : Option ℕ) (a : Attempt) : UploadSession where
  backend := env.backend
  avail := avail
  existing := (a.begun H file st).staging
  storedBitmap := st.stored
  resumed := a.resumed st
  transferId := env.transferId
  expectedSize := file.size
  expectedHash := H file.bytes
  initialBitmap := a.initialBitmap H file
  parallelStreams := (a.config H file st).parallel

def Ready : Attempt → Prop
  | .resume _ _ => st.known = true
  | _ => True

end Attempt

inductive Interrupted (H : HashFn) (Z : Compressor) (env : TransferEnv) (file : SourceFile)
    (st : Remains) (a : Attempt) : Bool → Remains → Prop
  | early (hready : a.Ready st) : Interrupted H Z env file st a false (a.begun H file st)
  | late {stores : Bool} {avail : Option ℕ} {sched : Schedule} {streams : List Bytes}
      {staging : Option Bytes} {stored : ChunkBitmap} (hready : a.Ready st)
      (hsched : sched.Possible (a.config H file st) file (a.bitmap H file st))
      (hstreams : clientDataStreams H Z (a.config H file st) env.transferId file
        (a.bitmap H file st) sched = .ok streams)
      (hleaves : (a.session H file st env avail).Leaves H Z streams stores staging stored) :
      Interrupted H Z env file st a stores ⟨true, staging, stored⟩

inductive History (H : HashFn) (Z : Compressor) (env : TransferEnv) (file : SourceFile)
    (ok : Remains → Attempt → Bool → Prop) : Remains → Prop
  | start : History H Z env file ok .start
  | session {st st' : Remains} {a : Attempt} {stores : Bool} (hst : History H Z env file ok st)
      (hok : ok st a stores) (hcut : Interrupted H Z env file st a stores st') :
      History H Z env file ok st'

def DeltaSource.Genuine (src : DeltaSource) (H : HashFn) (file : SourceFile) : Prop :=
  ∀ idx, idx * deltaChunkSize < file.size →
    (∀ content, src.existing = some content → ∀ inv extent, src.inventory H = some inv →
      inv.lookup (H (chunkAt file.bytes deltaChunkSize idx).2) = some extent →
      slice content extent.offset extent.length = (chunkAt file.bytes deltaChunkSize idx).2) ∧
    (src.storeContains (H (chunkAt file.bytes deltaChunkSize idx).2) = true →
      src.storeContent (H (chunkAt file.bytes deltaChunkSize idx).2) =
        some (chunkAt file.bytes deltaChunkSize idx).2)

end Velcrux.Session
