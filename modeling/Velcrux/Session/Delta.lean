import Velcrux.Sync.Inventory
import Velcrux.Transfer.Send

/-!
# Delta uploads: negotiation and pre-staging

`handle_transfer_create` between INVENTORY_HINT and TRANSFER_PLAN, and its counterpart in the
client.
-/

namespace Velcrux.Session

open Chunking State Sync Transfer ByteFile

def deltaParams : ChunkParams := ⟨64 * 1024, 64 * 1024, 64 * 1024, by decide, by decide⟩

/-- What the server can reuse: the destination file, and the chunk files of its stores by name. A
store holds what was put under a name, whether or not it hashes to it. -/
structure DeltaSource where
  existing : Option Bytes
  namespacedStore : Option (Hash → Option Bytes)
  chunkStore : Option (Hash → Option Bytes)

variable (H : HashFn)

namespace DeltaSource

variable (src : DeltaSource)

def inventory : Option LocalInventory :=
  match src.existing with
  | none => none
  | some content =>
    (LocalInventory.fromFile H .fixed deltaParams (64 * 1024) (buffers (64 * 1024) content)).toOption

def storeContains (hash : Hash) : Bool :=
  (src.namespacedStore.bind fun store => store hash).isSome ||
    (src.chunkStore.bind fun store => store hash).isSome

def storeContent (hash : Hash) : Option Bytes :=
  match src.namespacedStore with
  | some store => store hash
  | none => src.chunkStore.bind fun store => store hash

def isDelta : Bool :=
  (src.inventory H).isSome || src.chunkStore.isSome || src.namespacedStore.isSome

end DeltaSource

/-- What the loop over `query.chunk_hashes` collects: the answer bits, the places and extents to copy
from the destination, the places and digests to copy from a store, and whether a subtraction in it
wrapped around. -/
structure QueryAnswer where
  haveBits : List Bool
  matching : List (ℕ × ChunkExtent)
  matchingStore : List (ℕ × Hash × ℕ)
  underflow : Bool

def answerQuery (src : DeltaSource) (inv : Option LocalInventory) (fileSize : ℕ) :
    ℕ → List Hash → QueryAnswer
  | _, [] => ⟨[], [], [], false⟩
  | idx, h :: hs =>
    let rest := answerQuery src inv fileSize (idx + 1) hs
    let dstOff := idx * (64 * 1024)
    let chunkLen := Nat.min (wrappingSub fileSize dstOff) (64 * 1024)
    let underflow := decide (fileSize < dstOff) || rest.underflow
    match inv.bind fun inv => inv.lookup h with
    | some extent =>
      ⟨true :: rest.haveBits, (dstOff, extent) :: rest.matching, rest.matchingStore, underflow⟩
    | none =>
      if src.storeContains h then
        ⟨true :: rest.haveBits, rest.matching, (dstOff, h, chunkLen) :: rest.matchingStore,
          underflow⟩
      else ⟨false :: rest.haveBits, rest.matching, rest.matchingStore, underflow⟩

structure Prestaged where
  staging : Bytes
  bitmap : ChunkBitmap

def copyMatching (existing : Bytes) (p : Prestaged) (m : ℕ × ChunkExtent) : Prestaged where
  staging := writeAt p.staging m.1 (slice existing m.2.offset m.2.length)
  bitmap := p.bitmap.markComplete (m.1 / (64 * 1024)) m.2.length

def copyStored (src : DeltaSource) (p : Prestaged) (m : ℕ × Hash × ℕ) : Prestaged where
  staging :=
    match src.storeContent m.2.1 with
    | some content => writeAt p.staging m.1 content
    | none => p.staging
  bitmap := p.bitmap.markComplete (m.1 / (64 * 1024)) m.2.2

/-- The server copies what it finds in the destination file and in its chunk stores into a new
staging file and marks it in a bitmap of 64 KiB indices. -/
def prestage (src : DeltaSource) (fileSize : ℕ) (answer : QueryAnswer) : Prestaged :=
  let p : Prestaged := ⟨List.replicate fileSize 0, .new⟩
  let p :=
    match src.existing with
    | some existing => answer.matching.foldl (copyMatching existing) p
    | none => p
  answer.matchingStore.foldl (copyStored src) p

def prestageQuery (src : DeltaSource) (fileSize : ℕ) (query : List Hash) : Prestaged :=
  prestage src fileSize (answerQuery src (src.inventory H) fileSize 0 query)

def clientQuery (file : SourceFile) (useDelta : Bool) : List Hash :=
  if useDelta then
    (List.range (divCeil file.size (64 * 1024))).map fun idx =>
      H (chunkAt file.bytes (64 * 1024) idx).2
  else []

def clientBitmapLoop (file : SourceFile) (bm : ChunkBitmap) : ℕ → List Bool → ChunkBitmap
  | _, [] => bm
  | idx, have_ :: bits =>
    clientBitmapLoop file
      (if have_ then bm.markComplete idx (chunkAt file.bytes (64 * 1024) idx).2.length else bm)
      (idx + 1) bits

def clientBitmap (file : SourceFile) (bits : List Bool) : ChunkBitmap :=
  clientBitmapLoop file .new 0 bits

def cliConfig (parallelStreams : ℕ) (compression : Bool) : PipelineConfig :=
  { PipelineConfig.default with parallelStreams := parallelStreams, compression := compression }

def uploadConfig (parallelStreams : ℕ) (compression : Bool) (initial : ChunkBitmap) :
    PipelineConfig :=
  if initial.len = 0 then cliConfig parallelStreams compression
  else { cliConfig parallelStreams compression with chunkMode := .fixed, chunkParams := deltaParams }

end Velcrux.Session
