import Velcrux.Chunking.Chunker
import Velcrux.Wire.Basic

/-!
# Manifest and inventory messages

MANIFEST_BEGIN, MANIFEST_BATCH, MANIFEST_END, INVENTORY_HINT, CHUNK_QUERY and CHUNK_RESPONSE
(`protocol/message`).
-/

namespace Velcrux.Wire

open Decoding Varint
open Chunking (ChunkParams)

def maxManifestEntries : ℕ := 50000000

def maxManifestBytes : ℕ := 8 * 1024 * 1024 * 1024

def manifestBatchSize : ℕ := 4096

structure ManifestBegin where
  fileCount : UInt64
  totalBytes : UInt64
  chunkerParams : ChunkParams
  manifestHash : Hash
deriving DecidableEq

namespace ManifestBegin

def encode (m : ManifestBegin) : Except Failure Bytes :=
  payload [u64Field m.fileCount, u64Field m.totalBytes, u64Field (UInt64.ofNat m.chunkerParams.min),
    u64Field (UInt64.ofNat m.chunkerParams.target), u64Field (UInt64.ofNat m.chunkerParams.max),
    m.manifestHash.bytes]

def decode : PayloadDecoder ManifestBegin := do
  need 72 (.malformed "MANIFEST_BEGIN: truncated")
  let fileCount ← u64
  refuse (maxManifestEntries < fileCount.toNat) (.invalidManifest
    s!"file count {fileCount} exceeds MAX_MANIFEST_ENTRIES {maxManifestEntries}")
  let totalBytes ← u64
  refuse (maxManifestBytes < totalBytes.toNat) (.invalidManifest
    s!"total bytes {totalBytes} exceeds MAX_MANIFEST_BYTES {maxManifestBytes}")
  let min ← u64
  let target ← u64
  let max ← u64
  let chunkerParams ← ofOption (ChunkParams.new min.toNat target.toNat max.toNat)
    (.malformed "MANIFEST_BEGIN: invalid chunk params")
  let manifestHash ← readHash "MANIFEST_BEGIN: invalid hash"
  return ⟨fileCount, totalBytes, chunkerParams, manifestHash⟩

end ManifestBegin

structure ManifestBatch where
  batchIndex : UInt64
  entryCount : UInt32
  compressedPayload : Bytes
deriving DecidableEq

namespace ManifestBatch

def encode (m : ManifestBatch) : Except Failure Bytes :=
  payload [u64Field m.batchIndex, u32Field m.entryCount, m.compressedPayload]

def decode : PayloadDecoder ManifestBatch := do
  need 12 (.malformed "MANIFEST_BATCH: truncated")
  let batchIndex ← u64
  let entryCount ← u32
  refuse (manifestBatchSize < entryCount.toNat) (.invalidManifest
    s!"batch entry count {entryCount} exceeds MANIFEST_BATCH_SIZE {manifestBatchSize}")
  let compressedPayload ← takeRest
  return ⟨batchIndex, entryCount, compressedPayload⟩

end ManifestBatch

structure ManifestEnd where
  manifestHash : Hash
deriving DecidableEq

namespace ManifestEnd

def encode (m : ManifestEnd) : Except Failure Bytes := payload [m.manifestHash.bytes]

def decode : PayloadDecoder ManifestEnd := do
  let buf ← takeRest
  refuse (buf.length ≠ 32) (.malformed "MANIFEST_END: expected 32 bytes")
  let manifestHash ← ofOption (Hash.fromBytes buf) (.malformed "MANIFEST_END: invalid hash")
  return ⟨manifestHash⟩

end ManifestEnd

structure InventoryHint where
  transferId : TransferId
  filterBits : UInt32
  numHashes : UInt8
  bitset : Bytes
deriving DecidableEq

namespace InventoryHint

def encode (m : InventoryHint) : Except Failure Bytes :=
  payload [m.transferId.bytes, u32Field m.filterBits, [m.numHashes], m.bitset]

def decode : PayloadDecoder InventoryHint := do
  need (16 + 4 + 1) (.malformed "INVENTORY_HINT: truncated")
  let transferId ← readTransferId "INVENTORY_HINT: bad transfer_id"
  let filterBits ← u32
  let numHashes ← u8
  let bitset ← takeRest
  return ⟨transferId, filterBits, numHashes, bitset⟩

end InventoryHint

structure ChunkQuery where
  transferId : TransferId
  querySeq : UInt64
  chunkHashes : List Hash
deriving DecidableEq

namespace ChunkQuery

def encode (m : ChunkQuery) : Except Failure Bytes :=
  payload [m.transferId.bytes, u64Field m.querySeq, encodeVarint m.chunkHashes.length,
    m.chunkHashes.flatMap Hash.bytes]

def decode : PayloadDecoder ChunkQuery := do
  need (16 + 8) (.malformed "CHUNK_QUERY: truncated")
  let transferId ← readTransferId "CHUNK_QUERY: bad transfer_id"
  let querySeq ← u64
  let count ← varint
  refuse (maxManifestEntries < count) (.malformed "CHUNK_QUERY: too many hashes")
  refuse (2 ^ 64 ≤ count * 32) (.malformed "CHUNK_QUERY: count overflow")
  checkedAdd (count * 32) (.malformed "CHUNK_QUERY: length overflow")
  need (count * 32) (.malformed "CHUNK_QUERY: truncated hashes")
  let chunkHashes ← many (readHash "CHUNK_QUERY: invalid hash") count
  return ⟨transferId, querySeq, chunkHashes⟩

end ChunkQuery

structure ChunkResponse where
  transferId : TransferId
  querySeq : UInt64
  totalChunks : UInt32
  haveCount : UInt32
  rleBitmap : Bytes
deriving DecidableEq

namespace ChunkResponse

def encode (m : ChunkResponse) : Except Failure Bytes :=
  payload [m.transferId.bytes, u64Field m.querySeq, u32Field m.totalChunks, u32Field m.haveCount,
    m.rleBitmap]

def decode : PayloadDecoder ChunkResponse := do
  need (16 + 8 + 4 + 4) (.malformed "CHUNK_RESPONSE: truncated")
  let transferId ← readTransferId "CHUNK_RESPONSE: bad transfer_id"
  let querySeq ← u64
  let totalChunks ← u32
  let haveCount ← u32
  let rleBitmap ← takeRest
  return ⟨transferId, querySeq, totalChunks, haveCount, rleBitmap⟩

end ChunkResponse

end Velcrux.Wire
