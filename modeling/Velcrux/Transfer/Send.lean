import Velcrux.Chunking.Engine
import Velcrux.Transfer.Receive

/-!
# Sending an upload

The send side of `client_upload_stream`, with its three ways to cut the file: workers that share a
list of missing chunks, a loop over them, and the content-defined pipeline.
-/

namespace Velcrux.Transfer

open Chunking Protocol State ByteFile

structure PipelineConfig where
  readBufferSize : ℕ
  maxInflight : ℕ
  chunkMode : ChunkMode
  chunkParams : ChunkParams
  parallelStreams : ℕ
  compression : Bool
deriving DecidableEq

def PipelineConfig.default : PipelineConfig :=
  ⟨2 * 1024 * 1024, 4, .cdc, ChunkParams.default, 1, false⟩

structure SourceFile where
  bytes : Bytes
  length_le : bytes.length ≤ isizeMax
deriving DecidableEq

def SourceFile.size (f : SourceFile) : ℕ := f.bytes.length

def divCeil (a b : ℕ) : ℕ := (a + b - 1) / b

namespace PipelineConfig

variable (cfg : PipelineConfig)

def parallel : ℕ := Nat.min (Nat.max cfg.parallelStreams 1) 16

/-- The chunk size of the fixed-size pipelines. Outside fixed mode the client guesses from the
number of bitmap entries whether the bitmap counts 64 KiB slots. -/
def chunkSize (bitmap : ChunkBitmap) (fileSize : ℕ) : ℕ :=
  if cfg.chunkMode = .fixed then cfg.chunkParams.target
  else if 0 < bitmap.len ∧ divCeil fileSize m3ChunkSize < bitmap.len then deltaChunkSize
  else m3ChunkSize

end PipelineConfig

def chunkAt (file : Bytes) (chunkSize idx : ℕ) : ℕ × Bytes :=
  let offset := idx * chunkSize
  (offset, slice file offset (Nat.min (file.length - offset) chunkSize))

def missingLoop (bitmap : ChunkBitmap) (total : ℕ) : ℕ → ℕ → List ℕ
  | 0, _ => []
  | fuel + 1, next =>
    if next < total then
      next :: missingLoop bitmap total fuel ((bitmap.firstMissingFrom (next + 1)).getD total)
    else []

def missingChunks (bitmap : ChunkBitmap) (total : ℕ) : List ℕ :=
  missingLoop bitmap total total ((bitmap.firstMissingFrom 0).getD total)

def resumableLoop (file : Bytes) (chunkSize total : ℕ) : ℕ → ChunkBitmap → ℕ → List ℕ
  | 0, _, _ => []
  | fuel + 1, bitmap, next =>
    if next < total then
      let bitmap := bitmap.markComplete next (chunkAt file chunkSize next).2.length
      next :: resumableLoop file chunkSize total fuel bitmap
        ((bitmap.firstMissingFrom (next + 1)).getD total)
    else []

variable (H : HashFn) (Z : Compressor)

/-- The loop of `chunker_to_channel_fixed` (`engine_m3`): the frames handed to the writer, each with
its offset, length, digest and bytes. `pos` is the read position of the open file; the inner loop
reads on from it until `want` bytes are there or the file ends. -/
def fixedChannelLoop (file : Bytes) (chunkSize : ℕ) : ℕ → ChunkBitmap → ℕ → ℕ →
    Except VelcruxError (List (ℕ × ℕ × Hash × Bytes))
  | 0, _, _, _ => .ok []
  | fuel + 1, bitmap, pos, next =>
    let total := divCeil file.length chunkSize
    if next < total then
      let offset := next * chunkSize
      let want := min (file.length - offset) chunkSize
      let buf := slice file pos want
      if buf.length < want then
        .error (.internal s!"client: file truncated at offset {offset + buf.length}")
      else
        let bitmap := bitmap.markComplete next want
        (fixedChannelLoop file chunkSize fuel bitmap (pos + want)
          ((bitmap.firstMissingFrom (next + 1)).getD total)).map ((offset, want, H buf, buf) :: ·)
    else .ok []

def chunkerToChannelFixed (file : Bytes) (bitmap : ChunkBitmap) :
    Except VelcruxError (List (ℕ × ℕ × Hash × Bytes)) :=
  let total := divCeil file.length m3ChunkSize
  fixedChannelLoop H file m3ChunkSize total bitmap 0 ((bitmap.firstMissingFrom 0).getD total)

def sendChunk (compression : Bool) (selector : Selector) (c : ℕ × Bytes) : Bytes × Selector :=
  if compression then encodeDataFrameAdaptive Z c.1 (H c.2) c.2 selector
  else (encodeDataFrameMaybeCompressed Z c.1 (H c.2) c.2 false, selector)

def sendChunks (compression : Bool) : Selector → List (ℕ × Bytes) → List Bytes
  | _, [] => []
  | selector, c :: cs =>
    let r := sendChunk H Z compression selector c
    r.1 :: sendChunks compression r.2 cs

def workerChunks (chunks : List (ℕ × Bytes)) (workers : List ℕ) (w : ℕ) : List (ℕ × Bytes) :=
  ((chunks.zip workers).filter fun p => p.2 = w).map Prod.fst

/-- The read loop of `chunker_to_channel` over the buffers the reads return; after the last of them
a read returns nothing and the rest is sent. -/
def chunkerLoop (chunker : Chunker) (pending : Bytes) (pendingOffset : ℕ) :
    List Bytes → Except Failure (List (ℕ × Bytes))
  | [] => .ok (if pending = [] then [] else [(pendingOffset, pending)])
  | buf :: reads =>
    match chunker.push buf with
    | .error e => .error (.error e)
    | .ok (chunker, boundaries) =>
      match drainPending (pending ++ buf) pendingOffset boundaries with
      | .error e => .error e
      | .ok (items, pending, pendingOffset) =>
        match chunkerLoop chunker pending pendingOffset reads with
        | .error e => .error e
        | .ok later => .ok (items ++ later)

variable (cfg : PipelineConfig)

def chunkerToChannel (reads : List Bytes) : Except Failure (List (ℕ × Bytes)) :=
  if isizeMax < cfg.readBufferSize ∨ isizeMax < cfg.chunkParams.max then
    .error (.error (.internal "chunker task join: capacity overflow"))
  else chunkerLoop (createChunker cfg.chunkMode cfg.chunkParams) [] 0 reads

def maxPermits : ℕ := u64Max / 8

/-- How much each read returns and which worker takes the next chunk. -/
structure Schedule where
  reads : List Bytes
  workers : List ℕ
deriving DecidableEq

def streamPreamble (transferId : TransferId) (streamSeq : ℕ) : Bytes :=
  encodeDataPreamble ⟨transferId, 1, streamSeq⟩

def fixedChunks (file : Bytes) (bitmap : ChunkBitmap) (indices : List ℕ) : List (ℕ × Bytes) :=
  indices.map (chunkAt file (cfg.chunkSize bitmap file.length))

def clientDataStreams (transferId : TransferId) (file : SourceFile)
    (bitmap : ChunkBitmap) (sched : Schedule) : Except Failure (List Bytes) :=
  let chunkSize := cfg.chunkSize bitmap file.size
  let total := divCeil file.size chunkSize
  if 1 < cfg.parallel then
    let chunks := fixedChunks cfg file.bytes bitmap (missingChunks bitmap total)
    .ok ((List.range cfg.parallel).map fun w =>
      streamPreamble transferId (w + 1) ++
        (sendChunks H Z cfg.compression .withDefaults
          (workerChunks chunks sched.workers w)).flatten)
  else if 0 < bitmap.len ∨ cfg.chunkMode = .fixed then
    let indices := resumableLoop file.bytes chunkSize total total bitmap
      ((bitmap.firstMissingFrom 0).getD total)
    .ok [streamPreamble transferId 1 ++
      (sendChunks H Z cfg.compression .withDefaults
        (fixedChunks cfg file.bytes bitmap indices)).flatten]
  else if cfg.maxInflight = 0 ∨ maxPermits < cfg.maxInflight then
    .error (.panic "mpsc bounded channel requires 0 < buffer <= MAX_PERMITS")
  else
    match chunkerToChannel cfg sched.reads with
    | .error e => .error e
    | .ok items =>
      .ok [streamPreamble transferId 1 ++ (items.map fun c =>
        encodeDataFrameMaybeCompressed Z c.1 (H c.2) c.2 cfg.compression).flatten]

/-- The buffers that reading the file with the configured buffer can return: non-empty, no longer
than the buffer, and together the file. A read into an empty buffer returns nothing. -/
def ReadsOf (file : Bytes) (reads : List Bytes) : Prop :=
  (∀ r ∈ reads, r ≠ [] ∧ r.length ≤ cfg.readBufferSize) ∧
    (cfg.readBufferSize ≠ 0 → reads.flatten = file)

structure Schedule.Possible (cfg : PipelineConfig) (file : SourceFile) (bitmap : ChunkBitmap)
    (sched : Schedule) : Prop where
  reads : ReadsOf cfg file.bytes sched.reads
  workers_lt : ∀ w ∈ sched.workers, w < cfg.parallel
  workers_length : sched.workers.length =
    (missingChunks bitmap (divCeil file.size (cfg.chunkSize bitmap file.size))).length

end Velcrux.Transfer
