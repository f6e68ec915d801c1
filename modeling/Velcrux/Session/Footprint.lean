import Velcrux.Foundations.Growth
import Velcrux.Session.Create
import Velcrux.Session.Resume
import Velcrux.Wire.Transfer

/-!
# The staging file of an upload

`handle_transfer_create` for an upload, as far as it concerns the size of the staging file. The
declared size is checked once; the places written after that come from the client.
-/

namespace Velcrux.Session

open Protocol State Storage Sync Transfer ByteFile Streams

/-- The quota and the disk-space check; `quota` is the refusal of the limits provider, and `free` the
answer of `available_space`, `none` when it failed. -/
def resourceCheck (quota : Option String) (minFreeSpace : ℕ) (free : Option ℕ) (bytesTotal : ℕ) :
    Option Refusal :=
  match quota with
  | some reason => some ⟨.quotaExceeded, reason⟩
  | none =>
    match free with
    | none => none
    | some avail =>
      let required := saturatingAdd bytesTotal minFreeSpace
      if 0 < bytesTotal ∧ avail < required then
        some ⟨.diskFull,
          s!"insufficient disk space: available {avail} B < required {required} B"⟩
      else none

/-- An upload that declares a size and passed the checks, with what the server has for it: the choice
of its transfer, the staging file and the bitmap of an earlier session, the destination and the chunk
stores. `avail` is the free space when the staging file is opened. -/
structure UploadRequest where
  backend : LocalBackend
  quota : Option String
  free : Option ℕ
  avail : Option ℕ
  transferId : TransferId
  fileSize : ℕ
  fileHash : Hash
  resumed : Bool
  bytesReusable : ℕ
  staging : Option Bytes
  stored : ChunkBitmap
  src : DeltaSource
  size_pos : 0 < fileSize
  size_le : fileSize ≤ u64Max
  checked : resourceCheck quota backend.minFreeSpace free fileSize = none

inductive AfterHint where
  | chunkQuery (hashes : List Hash)
  | other
  | broken

inductive UploadPath where
  /-- The destination already has the declared content. -/
  | identical
  | delta (query : List Hash)
  | plain
  | broken

/-- What the client sends after TRANSFER_CREATE: the frame after INVENTORY_HINT, TRANSFER_BEGIN if it
comes, and the data streams with the order in which their chunks take effect. A chunk whose write
the file system refuses takes no effect and ends its session. -/
structure ClientSide where
  afterHint : AfterHint
  begin : Option Wire.TransferBegin
  streams : List Bytes
  order : List ReceivedChunk

namespace UploadRequest

variable (u : UploadRequest) (H : HashFn)

def isIdentical : Bool :=
  match u.src.existing with
  | some content => H content = u.fileHash ∧ content.length = u.fileSize
  | none => false

def path (frame : AfterHint) : UploadPath :=
  if u.fileHash = .zero then .plain
  else if u.isIdentical H then .identical
  else if u.src.isDelta H then
    match frame with
    | .chunkQuery hashes => .delta hashes
    | .other => .plain
    | .broken => .broken
  else .plain

def answer (query : List Hash) : QueryAnswer :=
  answerQuery u.src (u.src.inventory H) u.fileSize 0 query

def prestaged (query : List Hash) : Prestaged := prestage u.src u.fileSize (u.answer H query)

def deltaSession (query : List Hash) (begin : Wire.TransferBegin) : UploadSession where
  backend := u.backend
  avail := u.avail
  existing := some (u.prestaged H query).staging
  storedBitmap := u.stored
  resumed := true
  transferId := u.transferId
  expectedSize := u.fileSize
  expectedHash := u.fileHash
  initialBitmap := some (u.prestaged H query).bitmap
  parallelStreams := begin.streams.toNat

def plainSession (begin : Wire.TransferBegin) : UploadSession where
  backend := u.backend
  avail := u.avail
  existing := u.staging
  storedBitmap := u.stored
  resumed := u.resumed
  transferId := u.transferId
  expectedSize := u.fileSize
  expectedHash := u.fileHash
  initialBitmap := none
  parallelStreams := begin.streams.toNat

/-- The session that receives data, if the exchange gets that far. A delta upload that lacks nothing
goes on to VERIFY, and on the plain path TRANSFER_BEGIN has to name the transfer. -/
def session (c : ClientSide) : Option UploadSession :=
  match c.begin, u.path H c.afterHint with
  | some begin, .delta query =>
    if u.fileSize - (u.prestaged H query).bitmap.bytesCompleted = 0 then none
    else some (u.deltaSession H query begin)
  | some begin, .plain =>
    if begin.transferId = u.transferId then some (u.plainSession begin) else none
  | _, _ => none

end UploadRequest

def prestageMoments (src : DeltaSource) (fileSize : ℕ) (answer : QueryAnswer) : List Bytes :=
  let p : Prestaged := ⟨List.replicate fileSize 0, .new⟩
  let fromExisting :=
    match src.existing with
    | some existing => answer.matching.scanl (copyMatching existing) p
    | none => [p]
  let p :=
    match src.existing with
    | some existing => answer.matching.foldl (copyMatching existing) p
    | none => p
  (fromExisting ++ answer.matchingStore.scanl (copyStored src) p).map Prestaged.staging

def sessionMoments (s : UploadSession) (streams : List Bytes) (order : List ReceivedChunk) :
    List Bytes :=
  match s.openStaging streams with
  | .error _ => []
  | .ok content =>
    (order.scanl (receiveChunk s.chunkSize s.isStreaming) ⟨content, s.startBitmap⟩).map
      Receiver.staging

namespace UploadRequest

variable (u : UploadRequest) (H : HashFn)

def moments (c : ClientSide) : List Bytes :=
  u.staging.toList ++
    (match u.path H c.afterHint with
      | .delta query => prestageMoments u.src u.fileSize (u.answer H query)
      | _ => []) ++
    match u.session H c with
    | some s => sessionMoments s c.streams c.order
    | none => []

def plannedReusable (c : ClientSide) : Option ℕ :=
  match u.path H c.afterHint with
  | .identical => some u.fileSize
  | .delta query => some (u.prestaged H query).bitmap.bytesCompleted
  | .plain => some u.bytesReusable
  | .broken => none

def underflows (c : ClientSide) : Bool :=
  match u.path H c.afterHint with
  | .delta query => (u.answer H query).underflow
  | _ => false

/-- **The contract.** The staging file never outgrows the declared size, the plan does not promise
more than that, and no subtraction wraps around. -/
structure StaysWithin (c : ClientSide) : Prop where
  staging : ∀ content ∈ u.moments H c, content.length ≤ u.fileSize
  plan : ∀ n ∈ u.plannedReusable H c, n ≤ u.fileSize
  noUnderflow : u.underflows H c = false

end UploadRequest

namespace DeltaSource

variable (src : DeltaSource) (H : HashFn)

def extentOf (hash : Hash) : Option ChunkExtent :=
  (src.inventory H).bind fun inv => inv.lookup hash

def reused (hash : Hash) : Option Bytes :=
  match src.extentOf H hash with
  | some extent => some (slice (src.existing.getD []) extent.offset extent.length)
  | none => if src.storeContains hash then some ((src.storeContent hash).getD []) else none

def foundSlots (query : List Hash) : Finset ℕ :=
  (Finset.range query.length).filter fun i =>
    (query[i]?.bind fun hash => src.reused H hash).isSome

/-- The bytes a position of the query counts for in an upload of `n` bytes: the length of the
destination's chunk, or the length of the slot for a chunk of a store. -/
def countedLen (n : ℕ) (query : List Hash) (i : ℕ) : ℕ :=
  match query[i]?.bind fun hash => src.extentOf H hash with
  | some extent => extent.length
  | none => slotLen deltaChunkSize n i

structure QueryFits (n : ℕ) (query : List Hash) : Prop where
  position : ∀ i < query.length, i * deltaChunkSize ≤ n
  piece : ∀ i hash content, query[i]? = some hash → src.reused H hash = some content →
    EndsWithin n (i * deltaChunkSize, content)

end DeltaSource

def writtenFrames (chunkSize : ℕ) (isStreaming : Bool) (marked : Finset ℕ)
    (order : List ReceivedChunk) : List ReceivedChunk :=
  if isStreaming then order else keepFirst (fun c => c.offset / chunkSize) marked order

def FramesFit (n chunkSize : ℕ) (isStreaming : Bool) (marked : Finset ℕ)
    (order : List ReceivedChunk) : Prop :=
  ∀ c ∈ writtenFrames chunkSize isStreaming marked order,
    c.isHole = true ∨ EndsWithin n (c.offset, c.data)

namespace UploadRequest

variable (u : UploadRequest) (H : HashFn)

def Opens (c : ClientSide) (begin : Wire.TransferBegin) : Prop :=
  u.backend.spaceCheck u.avail u.fileSize = .ok () ∧
    (1 < begin.streams.toNat ∨
      (readPreamble u.transferId (c.streams.headD [])).toOption.isSome = true)

def KeepsToSize (c : ClientSide) : Prop :=
  (∀ content ∈ u.staging, content.length ≤ u.fileSize) ∧
    match u.path H c.afterHint with
    | .identical | .broken => True
    | .delta query =>
      u.src.QueryFits H u.fileSize query ∧
        ∀ begin ∈ c.begin, u.Opens c begin →
          ∑ i ∈ u.src.foundSlots H query, u.src.countedLen H u.fileSize query i < u.fileSize →
          FramesFit u.fileSize deltaChunkSize false (u.src.foundSlots H query) c.order
    | .plain =>
      u.bytesReusable ≤ u.fileSize ∧
        ∀ begin ∈ c.begin, u.Opens c begin → begin.transferId = u.transferId →
          FramesFit u.fileSize m3ChunkSize (u.fileHash = .zero)
            (if u.resumed then u.stored.set else ∅) c.order

end UploadRequest

end Velcrux.Session
