import Velcrux.Chunking.Boundaries

/-!
# The in-memory chunk pipeline

`PipelinedChunker::process_slice` (`chunking/pipeline`): a buffer is pushed through a chunker slice
by slice, the chunks are copied out at the reported boundaries and hashed in order.
-/

namespace Velcrux.Chunking

structure PipelinedChunk where
  index : ℕ
  offset : ℕ
  length : ℕ
  hash : Hash
  data : Bytes
deriving DecidableEq

structure ChunkPipelineConfig where
  mode : ChunkMode
  params : ChunkParams
  readBufferSize : ℕ
  readBufferSize_pos : 1 ≤ readBufferSize

namespace Chunker

def isFinished : Chunker → Bool
  | .fixed c => c.finished
  | .rolling c => c.finished
  | .fastCdc c => c.finished

def closed : Chunker → Chunker
  | .fixed c =>
    .fixed { c with finished := true, inChunk := 0, nextOffset := c.nextOffset + c.inChunk }
  | .rolling c =>
    .rolling { c with finished := true, inChunk := 0, nextOffset := c.nextOffset + c.inChunk }
  | .fastCdc c =>
    .fastCdc { c with finished := true, inChunk := 0, nextOffset := c.nextOffset + c.inChunk }

@[simp] theorem isFinished_closed (c : Chunker) : c.closed.isFinished = true := by cases c <;> rfl

theorem finish_of_isFinished {c : Chunker} (h : c.isFinished = true) :
    ∃ e, c.finish = .error e := by
  cases c with
  | fixed c => exact ⟨_, if_pos h⟩
  | rolling c => exact ⟨_, if_pos h⟩
  | fastCdc c => exact ⟨_, if_pos h⟩

end Chunker

def copySlice (data : Bytes) (b : ChunkBoundary) : Except Failure (ChunkBoundary × Bytes) :=
  if data.length < b.endOff then .error (.panic "range end index out of range")
  else .ok (b, b.bytesIn data)

def pushSlices (config : ChunkPipelineConfig) (data : Bytes) (chunker : Chunker) (cursor : ℕ) :
    Except Failure (Chunker × List (ChunkBoundary × Bytes)) :=
  if cursor < data.length then
    let nextEnd := Nat.min (cursor + config.readBufferSize) data.length
    match chunker.push ((data.take nextEnd).drop cursor) with
    | .error e => .error (.error e)
    | .ok (chunker, boundaries) => do
      let found ← boundaries.mapM (copySlice data)
      let later ← pushSlices config data chunker nextEnd
      return (later.1, found ++ later.2)
  else .ok (chunker, [])
termination_by data.length - cursor
decreasing_by
  have hpos := config.readBufferSize_pos
  have hmin : Nat.min (cursor + config.readBufferSize) data.length =
      min (cursor + config.readBufferSize) data.length := rfl
  omega

def finishSlices (data : Bytes) (chunker : Chunker) :
    Except Failure (List (ChunkBoundary × Bytes)) :=
  match _ : chunker.finish with
  | .error e => .error (.error e)
  | .ok none => .ok []
  | .ok (some b) => do
    let found ← copySlice data b
    let later ← finishSlices data chunker.closed
    return found :: later
termination_by if chunker.isFinished then 0 else 1
decreasing_by
  have hopen : chunker.isFinished = false := by
    by_contra hfin
    obtain ⟨e, he⟩ := Chunker.finish_of_isFinished (by simpa using hfin)
    exact absurd (he.symm.trans ‹chunker.finish = .ok (some b)›) (by simp)
  simp [hopen]

/-- `process_slice`. The workers of `hash_chunks_batched` share the chunks among them; the digests
come in the order of the chunks. -/
def processSlice (H : HashFn) (config : ChunkPipelineConfig) (data : Bytes) :
    Except Failure (List PipelinedChunk) := do
  let pushed ← pushSlices config data (createChunker config.mode config.params) 0
  let last ← finishSlices data pushed.1
  return (pushed.2 ++ last).zipIdx.map fun (raw, i) =>
    ⟨i, raw.1.offset, raw.1.length, H raw.2, raw.2⟩

/-- The pipeline accepts an input: it numbers the chunks, keeps every byte, and cuts where
`chunk_reader` cuts, whatever portions that reads the input in. -/
def Processes (H : HashFn) (config : ChunkPipelineConfig) (data : Bytes) : Prop :=
  ∃ chunks, processSlice H config data = .ok chunks ∧
    chunks.map PipelinedChunk.index = List.range chunks.length ∧
    (chunks.map PipelinedChunk.data).flatten = data ∧
    ∀ bufferSize reads items, reads.flatten = data →
      chunkReader config.mode config.params bufferSize reads = .ok items →
      chunks.map (fun c => (c.offset, c.length)) = items.map fun item => (item.1, item.2.length)

end Velcrux.Chunking
