import Velcrux.Manifest.Stream
import Velcrux.Sync.Scanned
import Velcrux.Wire.Frame

/-!
# Receiving a manifest

`recv_directory_manifest`, which keeps the entries in memory, and
`recv_streaming_manifest_to_spill`, which writes the batches to a spill file (`sync/directory`).
Frames that follow MANIFEST_END are not read.
-/

namespace Velcrux.Sync

open Manifest Wire ScannedEntry
open Protocol (Compressor)

structure ReceivedFrame where
  typeByte : UInt8
  payload : Bytes
  bounded : payload.length ≤ maxBatchDecompressedBytes

def manifestBeginType : UInt8 := 0x30

def manifestBatchType : UInt8 := 0x31

def manifestEndType : UInt8 := 0x32

section Loop

variable {σ ρ : Type} (onBatch : σ → ManifestBatch → Except VelcruxError σ)
  (onEnd : σ → ManifestEnd → Except VelcruxError ρ)

def recvBatches (begun : ManifestBegin) (s : σ) : List ReceivedFrame → Except VelcruxError ρ
  | [] => .error (.protocol .empty)
  | frame :: frames =>
    if frame.typeByte = manifestBatchType then
      match ManifestBatch.decode.run frame.payload with
      | .error e => .error (.protocol e)
      | .ok batch =>
        match onBatch s batch with
        | .error e => .error e
        | .ok s => recvBatches begun s frames
    else if frame.typeByte = manifestEndType then
      match ManifestEnd.decode.run frame.payload with
      | .error e => .error (.protocol e)
      | .ok ended =>
        if ended.manifestHash ≠ begun.manifestHash then
          .error (invalidManifest "manifest hash mismatch at MANIFEST_END")
        else onEnd s ended
    else
      .error (.protocol (.invalidStateTransition "expected MANIFEST_BATCH or MANIFEST_END"))

end Loop

def recvBegin : List ReceivedFrame → Except VelcruxError (ManifestBegin × List ReceivedFrame)
  | [] => .error (.protocol .empty)
  | frame :: frames =>
    if frame.typeByte ≠ manifestBeginType then
      .error (.protocol (.invalidStateTransition "expected MANIFEST_BEGIN"))
    else
      match ManifestBegin.decode.run frame.payload with
      | .error e => .error (.protocol e)
      | .ok begun => .ok (begun, frames)

def readEntries : ℕ → Bytes → Except VelcruxError (List FileEntry × Bytes)
  | 0, _ => .ok ([], [])
  | count + 1, slice =>
    if slice = [] then
      .error (.protocol (.malformed "MANIFEST_BATCH: truncated decompressed entries"))
    else
      match decodeFileEntry ⟨0, slice⟩ with
      | .error e => .error (.protocol e)
      | .ok (entry, after) =>
        match readEntries count (slice.drop after.pos) with
        | .error e => .error e
        | .ok (entries, raw) => .ok (entry :: entries, slice.take after.pos ++ raw)

structure ManifestBatchDecoder where
  expectedHash : Hash
  hashed : Bytes
  totalEntriesRead : ℕ
  totalManifestBytes : ℕ

variable (Z : Compressor) (H : HashFn)

def ManifestBatchDecoder.decodeBatch (d : ManifestBatchDecoder) (batch : ManifestBatch) :
    Except VelcruxError (List FileEntry × ManifestBatchDecoder) :=
  match decompressBatch Z batch.compressedPayload with
  | .error e => .error e
  | .ok decompressed =>
    let totalManifestBytes := d.totalManifestBytes + decompressed.length
    if maxManifestBytes < totalManifestBytes then
      .error (invalidManifest s!"manifest raw bytes exceeded limit {maxManifestBytes}")
    else
      match readEntries batch.entryCount.toNat decompressed with
      | .error e => .error e
      | .ok (entries, raw) =>
        .ok (entries, { d with
          hashed := d.hashed ++ raw
          totalEntriesRead := d.totalEntriesRead + entries.length
          totalManifestBytes })

def insertAll (inventory : DirectoryInventory) (entries : List FileEntry) : DirectoryInventory :=
  entries.foldl (fun inv e => inv.insert e.path.str (ofFileEntry H e)) inventory

def keepBatch (s : ManifestBatchDecoder × DirectoryInventory) (batch : ManifestBatch) :
    Except VelcruxError (ManifestBatchDecoder × DirectoryInventory) :=
  match s.1.decodeBatch Z batch with
  | .error e => .error e
  | .ok (entries, decoder) => .ok (decoder, insertAll H s.2 entries)

variable (frames : List ReceivedFrame)

def recvDirectoryManifest : Except VelcruxError DirectoryInventory :=
  match recvBegin frames with
  | .error e => .error e
  | .ok (begun, frames) =>
    recvBatches (keepBatch Z H) (fun s _ => .ok s.2) begun
      (⟨begun.manifestHash, [], 0, 0⟩, SortedMap.empty) frames

structure SpillState where
  spill : Bytes
  hashed : Bytes
  totalEntries : ℕ
  totalManifestBytes : ℕ

def spillBatch (s : SpillState) (batch : ManifestBatch) : Except VelcruxError SpillState :=
  match decompressBatch Z batch.compressedPayload with
  | .error e => .error e
  | .ok decompressed =>
    let totalManifestBytes := s.totalManifestBytes + decompressed.length
    if maxManifestBytes < totalManifestBytes then
      .error (invalidManifest s!"manifest raw bytes exceeded limit {maxManifestBytes}")
    else
      match readEntries batch.entryCount.toNat decompressed with
      | .error e => .error e
      | .ok (entries, raw) =>
        let totalEntries := s.totalEntries + entries.length
        if maxManifestEntries < totalEntries then
          .error (invalidManifest s!"manifest entries exceeded limit {maxManifestEntries}")
        else
          .ok ⟨s.spill ++ spillRecord batch, s.hashed ++ raw, totalEntries, totalManifestBytes⟩

def spillEnd (begun : ManifestBegin) (s : SpillState) (ended : ManifestEnd) :
    Except VelcruxError (ManifestBegin × ManifestEnd × Bytes) :=
  let computed := hashText (H s.hashed)
  let expected := hashText begun.manifestHash
  if H s.hashed ≠ begun.manifestHash then
    .error (invalidManifest
      s!"manifest content hash mismatch: computed {computed}, expected {expected}")
  else .ok (begun, ended, s.spill)

def recvStreamingManifestToSpill : Except VelcruxError (ManifestBegin × ManifestEnd × Bytes) :=
  match recvBegin frames with
  | .error e => .error e
  | .ok (begun, frames) =>
    recvBatches (spillBatch Z) (spillEnd H begun) begun
      ⟨spillMagic ++ [spillVersion], [], 0, 0⟩ frames

def SpillYields (entries : List FileEntry) : Prop :=
  ∃ begun ended spill r, recvStreamingManifestToSpill Z H frames = .ok (begun, ended, spill) ∧
    ManifestReader.openSpill spill begun.manifestHash = .ok r ∧ r.Yields Z H entries

/-- **The contract.** The receivers accept the same frames, and what they receive has the same
entries. -/
structure ReceiversAgree (frames : List ReceivedFrame) : Prop where
  accept : (∃ inventory, recvDirectoryManifest Z H frames = .ok inventory) ↔
    ∃ entries, SpillYields Z H frames entries
  entries : ∀ inventory entries, recvDirectoryManifest Z H frames = .ok inventory →
    SpillYields Z H frames entries → ∀ path scanned, inventory.get? path = some scanned ↔
      ∃ e ∈ entries, e.path.str = path ∧ ofFileEntry H e = scanned

structure LoadedBatch where
  batch : ManifestBatch
  data : Bytes
  entries : List FileEntry
  raw : Bytes

def LoadedBatch.Loads (b : LoadedBatch) : Prop :=
  decompressBatch Z b.batch.compressedPayload = .ok b.data ∧
    readEntries b.batch.entryCount.toNat b.data = .ok (b.entries, b.raw)

def FramedBatches (hash : Hash) : List ReceivedFrame → List ManifestBatch → Prop
  | [], _ => False
  | frame :: frames, batches =>
    (frame.typeByte = manifestEndType ∧ ManifestEnd.decode.run frame.payload = .ok ⟨hash⟩ ∧
      batches = []) ∨
    (frame.typeByte = manifestBatchType ∧ ∃ batch later,
      ManifestBatch.decode.run frame.payload = .ok batch ∧ FramedBatches hash frames later ∧
        batches = batch :: later)

structure Carries (frames : List ReceivedFrame) (begun : ManifestBegin) (loaded : List LoadedBatch) :
    Prop where
  framed : ∃ frame later, frames = frame :: later ∧ frame.typeByte = manifestBeginType ∧
    ManifestBegin.decode.run frame.payload = .ok begun ∧
    FramedBatches begun.manifestHash later (loaded.map LoadedBatch.batch)
  loads : ∀ b ∈ loaded, b.Loads Z
  bytes : (loaded.map fun b => b.data.length).sum ≤ maxManifestBytes

def Genuine : Prop :=
  ∀ begun loaded, Carries Z frames begun loaded →
    (loaded.flatMap LoadedBatch.entries).length ≤ maxManifestEntries ∧
    H (loaded.flatMap LoadedBatch.raw) = begun.manifestHash ∧
    ∀ e ∈ loaded.flatMap LoadedBatch.entries, ∀ e' ∈ loaded.flatMap LoadedBatch.entries,
      e.path.str = e'.path.str → ofFileEntry H e = ofFileEntry H e'

end Velcrux.Sync
