import Velcrux.Chunking.Engine

/-!
# The chunk inventory of a local file

`sync/inventory`: the chunks an existing file can contribute to a delta transfer, found by their
digest.
-/

namespace Velcrux.Sync

open Chunking

structure ChunkExtent where
  offset : ℕ
  length : ℕ
deriving DecidableEq

/-- Of several chunks with one digest the first is kept; holes are not listed. -/
structure LocalInventory where
  chunks : List (Hash × ChunkExtent)

namespace LocalInventory

def extentsFrom (H : HashFn) (offset : ℕ) : List Bytes → List (Hash × ChunkExtent)
  | [] => []
  | chunk :: rest =>
    let desc := ChunkDesc.of H chunk
    let later := extentsFrom H (offset + desc.length) rest
    match desc.hash with
    | some hash => (hash, ⟨offset, desc.length⟩) :: later
    | none => later

def fromFile (H : HashFn) (mode : ChunkMode) (params : ChunkParams) (readBufSize : ℕ)
    (reads : List Bytes) : Except Failure LocalInventory :=
  match chunkReader mode params readBufSize reads with
  | .error e => .error e
  | .ok chunks => .ok ⟨extentsFrom H 0 (chunks.map Prod.snd)⟩

def lookup (inv : LocalInventory) (hash : Hash) : Option ChunkExtent := inv.chunks.lookup hash

/-- `chunk_hashes`: the keys of the map, in one of their orders. -/
def chunkHashes (inv : LocalInventory) : List Hash := (inv.chunks.map Prod.fst).dedup

end LocalInventory

end Velcrux.Sync
