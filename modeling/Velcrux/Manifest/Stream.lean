import Velcrux.Manifest.Entry
import Velcrux.Wire.Manifest

/-!
# The manifest spill file

The streaming writer (`manifest/writer`), which cuts the entries into batches, compresses each and
appends it to the spill file, and the streaming reader (`manifest/reader`).
-/

namespace Velcrux.Manifest

open Chunking (ChunkParams)
open LittleEndian
open Protocol (Compressor)
open Wire

def spillMagic : Bytes := [0x56, 0x58, 0x4d, 0x42]

def spillVersion : UInt8 := 1

def invalidManifest (detail : String) : VelcruxError := .protocol (.invalidManifest detail)

/-- The state of the incremental hasher is the list of the bytes it has been given. -/
structure ManifestWriter where
  spill : Bytes
  chunkerParams : ChunkParams
  batchEntries : List FileEntry
  hashed : Bytes
  fileCount : ℕ
  totalBytes : UInt64
  manifestBytes : ℕ
  batchIndex : ℕ

def spillRecord (b : ManifestBatch) : Bytes :=
  u64Field b.batchIndex ++ u32Field b.entryCount ++
    u32Field (UInt32.ofNat b.compressedPayload.length) ++ b.compressedPayload

namespace ManifestWriter

variable (Z : Compressor) (H : HashFn) (w : ManifestWriter)

def new (params : ChunkParams) : ManifestWriter :=
  ⟨spillMagic ++ [spillVersion], params, [], [], 0, 0, 0, 0⟩

def spillBatch (batch : ManifestBatch) : ManifestWriter :=
  let encodeBuf := w.batchEntries.flatMap encodeFileEntry
  { w with
    spill := w.spill ++ spillRecord batch
    batchEntries := []
    hashed := w.hashed ++ encodeBuf
    manifestBytes := w.manifestBytes + encodeBuf.length
    batchIndex := w.batchIndex + 1 }

def flushBatch : Except VelcruxError (Option ManifestBatch × ManifestWriter) :=
  if w.batchEntries = [] then .ok (none, w)
  else
    let encodeBuf := w.batchEntries.flatMap encodeFileEntry
    let manifestBytes := w.manifestBytes + encodeBuf.length
    if maxManifestBytes < manifestBytes then
      .error (invalidManifest
        s!"manifest size {manifestBytes} exceeds MAX_MANIFEST_BYTES {maxManifestBytes}")
    else
      match Z.encodeAll encodeBuf 3 with
      | none => .error (.protocol (.malformed "zstd compression failed"))
      | some compressed =>
        let batch : ManifestBatch :=
          ⟨UInt64.ofNat w.batchIndex, UInt32.ofNat w.batchEntries.length, compressed⟩
        .ok (some batch, w.spillBatch batch)

def push (entry : FileEntry) : ManifestWriter :=
  { w with
    fileCount := w.fileCount + 1
    totalBytes := w.totalBytes + entry.size
    batchEntries := w.batchEntries ++ [entry] }

def addEntry (entry : FileEntry) : Except VelcruxError ManifestWriter :=
  if maxManifestEntries ≤ w.fileCount then
    .error (invalidManifest s!"manifest entry count reached limit {maxManifestEntries}")
  else if manifestBatchSize ≤ (w.push entry).batchEntries.length then
    ((w.push entry).flushBatch Z).map Prod.snd
  else .ok (w.push entry)

def finish : Except VelcruxError (ManifestBegin × ManifestEnd × Bytes) := do
  let (_, w) ← w.flushBatch Z
  let manifestHash := H w.hashed
  return (⟨UInt64.ofNat w.fileCount, w.totalBytes, w.chunkerParams, manifestHash⟩, ⟨manifestHash⟩,
    w.spill)

def addEntries : List FileEntry → ManifestWriter → Except VelcruxError ManifestWriter
  | [], w => .ok w
  | entry :: entries, w => do
    let w ← w.addEntry Z entry
    addEntries entries w

end ManifestWriter

variable (Z : Compressor)

def writeManifest (H : HashFn) (params : ChunkParams) (entries : List FileEntry) :
    Except VelcruxError (ManifestBegin × ManifestEnd × Bytes) := do
  let w ← ManifestWriter.addEntries Z entries (.new params)
  w.finish Z H

/-! ## Reading -/

def drain (out : Bytes) : List Bytes → Bool → Except VelcruxError Bytes
  | [], true => .ok out
  | [], false => .error .io
  | p :: ps, clean =>
    -- an empty read is the end of the stream
    if p = [] then .ok out
    else if maxBatchDecompressedBytes < out.length + p.length then
      .error (invalidManifest s!"decompressed batch exceeded limit {maxBatchDecompressedBytes} B")
    else drain (out ++ p) ps clean

def decompressBatch (compressed : Bytes) : Except VelcruxError Bytes :=
  match Z.decoder compressed with
  | none => .error (.protocol (.malformed "invalid zstd header"))
  | some (reads, clean) => drain [] reads clean

structure ManifestReader where
  rest : Bytes
  expectedHash : Hash
  hashed : Bytes
  currentDecompressed : Bytes
  currentCursor : ℕ
  entriesRemainingInBatch : ℕ
  totalEntriesRead : ℕ
  totalManifestBytes : ℕ
  finished : Bool
deriving DecidableEq

def hashText (x : Hash) : String :=
  String.ofList (x.bytes.flatMap fun b => [Nat.digitChar (b.toNat / 16), Nat.digitChar (b.toNat % 16)])

abbrev ReadResult := EStateM.Result VelcruxError ManifestReader

namespace ManifestReader

variable (Z : Compressor) (H : HashFn)

def openSpill (file : Bytes) (expectedHash : Hash) : Except VelcruxError ManifestReader :=
  if file.length < 4 then .error .io
  else if file.take 4 ≠ spillMagic then .error (invalidManifest "invalid spill file magic")
  else
    match file.drop 4 with
    | [] => .error .io
    | version :: rest =>
      if version ≠ spillVersion then
        .error (invalidManifest s!"unsupported spill file version {version}")
      else .ok ⟨rest, expectedHash, [], [], 0, 0, 0, 0, false⟩

variable (r : ManifestReader)

def checkHash : ReadResult Bool :=
  let r := { r with rest := [], finished := true }
  let computed := hashText (H r.hashed)
  let expected := hashText r.expectedHash
  if H r.hashed ≠ r.expectedHash then
    .error (invalidManifest s!"manifest hash mismatch: computed {computed}, expected {expected}") r
  else .ok false r

def loadBatch : ReadResult Unit :=
  let entryCount := decodeLE ((r.rest.drop 8).take 4)
  let compLen := decodeLE ((r.rest.drop 12).take 4)
  let body := r.rest.drop 16
  if manifestBatchSize < entryCount then
    .error (invalidManifest s!"entry count {entryCount} exceeds MANIFEST_BATCH_SIZE")
      { r with rest := body }
  else if body.length < compLen then .error .io { r with rest := [] }
  else
    let r := { r with rest := body.drop compLen }
    match decompressBatch Z (body.take compLen) with
    | .error e => .error e r
    | .ok decompressed =>
      let totalManifestBytes := r.totalManifestBytes + decompressed.length
      if maxManifestBytes < totalManifestBytes then
        .error (invalidManifest s!"manifest raw bytes exceeded limit {maxManifestBytes}")
          { r with totalManifestBytes }
      else .ok () { r with
        totalManifestBytes
        currentDecompressed := decompressed
        currentCursor := 0
        entriesRemainingInBatch := entryCount }

theorem loadBatch_rest {r r' : ManifestReader} (h : loadBatch Z r = .ok () r') :
    r'.rest.length ≤ r.rest.length - 16 := by
  unfold loadBatch at h
  dsimp only at h
  split_ifs at h
  split at h
  · cases h
  · split_ifs at h
    cases h
    simp only [List.length_drop]
    omega

/-- The loop of `next_entry` that reads batches until one has entries. The result says whether there
is an entry to decode; at the end of the file there is none. -/
def fill (r : ManifestReader) : ReadResult Bool :=
  if r.entriesRemainingInBatch ≠ 0 then .ok true r
  else if hlen : r.rest.length < 16 then r.checkHash H
  else
    match hload : loadBatch Z r with
    | .error e r' => .error e r'
    | .ok () r' =>
      have : r'.rest.length < r.rest.length := by
        have := loadBatch_rest Z hload
        omega
      fill r'
termination_by r.rest.length

def decodeEntry : ReadResult (Option FileEntry) :=
  if maxManifestEntries ≤ r.totalEntriesRead then
    .error (invalidManifest s!"manifest entry count exceeded {maxManifestEntries}") r
  else
    let slice := r.currentDecompressed.drop r.currentCursor
    match decodeFileEntry ⟨0, slice⟩ with
    | .error e => .error (.protocol e) r
    | .ok (entry, after) => .ok (some entry) { r with
        hashed := r.hashed ++ slice.take after.pos
        currentCursor := r.currentCursor + after.pos
        entriesRemainingInBatch := r.entriesRemainingInBatch - 1
        totalEntriesRead := r.totalEntriesRead + 1 }

def nextEntry : ReadResult (Option FileEntry) :=
  if r.finished then .ok none r
  else
    match r.fill Z H with
    | .error e r => .error e r
    | .ok false r => .ok none r
    | .ok true r => r.decodeEntry

def Yields : ManifestReader → List FileEntry → Prop
  | r, [] => ∃ r', r.nextEntry Z H = .ok none r'
  | r, entry :: entries => ∃ r', r.nextEntry Z H = .ok (some entry) r' ∧ Yields r' entries

end ManifestReader

/-! ## The contract -/

def ReadsBack (H : HashFn) (entries : List FileEntry)
    (written : ManifestBegin × ManifestEnd × Bytes) : Prop :=
  (∃ r, ManifestReader.openSpill written.2.2 written.1.manifestHash = .ok r ∧ r.Yields Z H entries) ∧
  ∃ buf, written.1.encode = .ok buf ∧ ManifestBegin.decode.run buf = .ok written.1

def batchesFrom (pending : List FileEntry) : List FileEntry → List (List FileEntry)
  | [] => if pending = [] then [] else [pending]
  | entry :: entries =>
    if manifestBatchSize ≤ (pending ++ [entry]).length then
      (pending ++ [entry]) :: batchesFrom [] entries
    else batchesFrom (pending ++ [entry]) entries

def batches (entries : List FileEntry) : List (List FileEntry) := batchesFrom [] entries

structure WithinLimits (entries : List FileEntry) : Prop where
  canonical : ∀ e ∈ entries, e.Canonical
  batch_bytes : ∀ b ∈ batches entries,
    (b.flatMap encodeFileEntry).length ≤ maxBatchDecompressedBytes
  total_bytes : (entries.map fun e => e.size.toNat).sum % 2 ^ 64 ≤ maxManifestBytes

/-- Two facts about zstd beyond that decompressing inverts compressing: a frame is not much longer
than its content, and a frame that has been cut short ends in an error or gives no data. -/
structure SoundFrames (Z : Compressor) : Prop where
  bound : ∀ {data level z}, Z.encodeAll data level = some z →
    z.length ≤ data.length + data.length / 256 + 64 * 1024
  cut : ∀ {data level z}, Z.encodeAll data level = some z → ∀ n < z.length, ∀ {reads clean},
    Z.decoder (z.take n) = some (reads, clean) → clean = false ∧ [] ∉ reads ∨ reads = []

end Velcrux.Manifest
