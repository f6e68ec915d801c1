import Velcrux.Chunking.Chunker

/-!
# The chunk engine

`ChunkEngine::chunk_reader`: each chunk of a reader is described by its length and its digest, or as
a hole when all its bytes are zero.
-/

namespace Velcrux.Chunking

/-- The `for b in boundaries` loop: cut the accumulated bytes at the boundaries. Returns the chunks
with their offsets, the bytes left over and the offset at which they start. -/
def drainPending (pending : Bytes) (pendingOffset : ℕ) :
    List ChunkBoundary → Except Failure (List (ℕ × Bytes) × Bytes × ℕ)
  | [] => .ok ([], pending, pendingOffset)
  | b :: bs =>
    let need := b.endOff - pendingOffset
    if pending.length < need then .error (.panic "range end index out of range")
    else
      match drainPending (pending.drop need) b.endOff bs with
      | .error e => .error e
      | .ok (items, rest) => .ok ((pendingOffset, pending.take need) :: items, rest)

def Chunker.finish (c : Chunker) : Except VelcruxError (Option ChunkBoundary) :=
  let last := if c.inChunk = 0 then none else some ⟨c.nextOffset, c.inChunk⟩
  match c with
  | .fixed c =>
    if c.finished then .error (.protocol (.malformed "FixedChunker: finish called twice"))
    else .ok last
  | .rolling c =>
    if c.finished then .error (.protocol (.malformed "RollingChunker: finish called twice"))
    else .ok last
  | .fastCdc c =>
    if c.finished then .error (.protocol (.malformed "FastCdcChunker: finish called twice"))
    else .ok last

def isAllZeros (s : Bytes) : Bool := s.all (· == 0)

structure ChunkDesc where
  length : ℕ
  hash : Option Hash
deriving DecidableEq

def ChunkDesc.of (H : HashFn) (chunk : Bytes) : ChunkDesc :=
  if isAllZeros chunk then ⟨chunk.length, none⟩ else ⟨chunk.length, some (H chunk)⟩

def chunkReaderLoop (chunker : Chunker) (pending : Bytes) (pendingOffset : ℕ) :
    List Bytes → Except Failure (List (ℕ × Bytes))
  | [] =>
    match chunker.finish with
    | .error e => .error (.error e)
    | .ok last =>
      match drainPending pending pendingOffset last.toList with
      | .error e => .error e
      | .ok (items, _) => .ok items
  | buf :: reads =>
    match chunker.push buf with
    | .error e => .error (.error e)
    | .ok (chunker, boundaries) =>
      match drainPending (pending ++ buf) pendingOffset boundaries with
      | .error e => .error e
      | .ok (items, pending, pendingOffset) =>
        match chunkReaderLoop chunker pending pendingOffset reads with
        | .error e => .error e
        | .ok later => .ok (items ++ later)

def chunkReader (mode : ChunkMode) (params : ChunkParams) (readBufferSize : ℕ)
    (reads : List Bytes) : Except Failure (List (ℕ × Bytes)) :=
  if isizeMax < Nat.max readBufferSize 4096 ∨ isizeMax < Nat.max params.max readBufferSize then
    .error (.panic "capacity overflow")
  else chunkReaderLoop (createChunker mode params) [] 0 reads

end Velcrux.Chunking
