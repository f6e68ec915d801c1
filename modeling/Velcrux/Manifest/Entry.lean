import Velcrux.Protocol.DataFrame
import Velcrux.Storage.Path
import Velcrux.Wire.Transfer

/-!
# Manifest entries

The entry and chunk descriptor types of a manifest (`manifest/entry`) and their canonical binary
codec (`manifest/codec`).
-/

namespace Velcrux.Manifest

open Decoding Varint LittleEndian
open Protocol (maxChunkSize)
open Storage (VPath isControl maxPathTotal)
open Wire

def maxXattrNameLen : ℕ := 255

def maxXattrValueLen : ℕ := 64 * 1024

def maxXattrCount : ℕ := 256

def maxTotalXattrBytes : ℕ := 256 * 1024

inductive FileType where
  | regular
  | directory
  | symlink
deriving DecidableEq

structure FileFlags where
  bits : UInt64
deriving DecidableEq

namespace FileFlags

/-- `FileFlags::file_type`: the two low bits; the value 3 counts as a regular file. -/
def fileType (f : FileFlags) : FileType :=
  if f.bits &&& 0x03 = 0x01 then .directory
  else if f.bits &&& 0x03 = 0x02 then .symlink
  else .regular

def hasXattrs (f : FileFlags) : Bool := f.bits &&& 0x08 ≠ 0

def isHardlink (f : FileFlags) : Bool := f.bits &&& 0x10 ≠ 0

end FileFlags

structure ChunkFlags where
  bits : UInt64
deriving DecidableEq

def ChunkFlags.isHole (f : ChunkFlags) : Bool := f.bits &&& 0x01 ≠ 0

structure ChunkDesc where
  flags : ChunkFlags
  length : UInt64
  hash : Option Hash
deriving DecidableEq

structure FileEntry where
  flags : FileFlags
  path : VPath
  size : UInt64
  mode : UInt32
  mtimeSec : Int64
  mtimeNsec : UInt32
  fileHash : Hash
  chunks : List ChunkDesc
  symlinkTarget : Option String
  hardlinkTarget : Option String
  xattrs : List (String × Bytes)
deriving DecidableEq

/-- `encode_chunk_desc`. A hole has no digest; a missing digest of other chunks is written as zeros. -/
def encodeChunkDesc (c : ChunkDesc) : Bytes :=
  encodeVarint c.flags.bits.toNat ++ encodeVarint c.length.toNat ++
    if ¬ c.flags.isHole then (c.hash.getD Hash.zero).bytes else []

def targetField (target : Option String) : Bytes := strField (target.getD "")

def xattrField (x : String × Bytes) : Bytes :=
  strField x.1 ++ (encodeVarint x.2.length ++ x.2)

variable (e : FileEntry)

def encodeFileEntry : Bytes :=
  [encodeVarint e.flags.bits.toNat, strField e.path.str, u64Field e.size, u32Field e.mode,
    u64Field e.mtimeSec.toUInt64, u32Field e.mtimeNsec, e.fileHash.bytes,
    encodeVarint e.chunks.length, e.chunks.flatMap encodeChunkDesc,
    if e.flags.fileType = .symlink then targetField e.symlinkTarget else [],
    if e.flags.isHardlink then targetField e.hardlinkTarget else [],
    if e.flags.hasXattrs then encodeVarint e.xattrs.length ++ e.xattrs.flatMap xattrField
    else []].flatten

/-! ## Decoding -/

def varint64 : PayloadDecoder UInt64 := UInt64.ofNat <$> varint

def onFlag {α : Type} (present : Prop) [Decidable present] (absent : α) (d : PayloadDecoder α) :
    PayloadDecoder α :=
  if present then d else pure absent

def readPath : PayloadDecoder VPath := do
  need 1 (.malformed "FILE_ENTRY: truncated path length")
  let pathLen ← varint
  refuse (maxPathTotal < pathLen) (.invalidManifest
    s!"path length {pathLen} exceeds MAX_PATH_TOTAL {maxPathTotal}")
  checkedAdd pathLen (.malformed "FILE_ENTRY: path offset overflow")
  need pathLen (.malformed "FILE_ENTRY: truncated path bytes")
  let pathStr ← readUtf8 pathLen "FILE_ENTRY: path is not valid UTF-8"
  result <| (VPath.validate pathStr).mapError fun e =>
    let reason := e.text
    .invalidManifest s!"path validation failed for '{pathStr}': {reason}"

def readChunkHash : PayloadDecoder (Option Hash) := do
  checkedAdd 32 (.malformed "CHUNK_DESC: hash offset overflow")
  need 32 (.malformed "CHUNK_DESC: truncated hash")
  some <$> readHash "CHUNK_DESC: invalid hash"

def decodeChunkDesc : PayloadDecoder ChunkDesc := do
  let flags ← ChunkFlags.mk <$> varint64
  need 1 (.malformed "CHUNK_DESC: truncated length")
  let length ← varint64
  let hash ← onFlag (¬ flags.isHole) none readChunkHash
  return ⟨flags, length, hash⟩

def readChunks : ℕ → ℕ → PayloadDecoder (List ChunkDesc × ℕ)
  | 0, runningSum => pure ([], runningSum)
  | count + 1, runningSum => do
    let chunk ← decodeChunkDesc
    let length := chunk.length.toNat
    refuse (maxChunkSize < length) (.invalidManifest
      s!"chunk length {length} exceeds MAX_CHUNK_SIZE {maxChunkSize}")
    refuse (2 ^ 64 ≤ runningSum + length) (.invalidManifest "chunk length overflow")
    let later ← readChunks count (runningSum + length)
    return (chunk :: later.1, later.2)

def readTarget (overflow truncated notUtf8 : String) : PayloadDecoder (Option String) := do
  if ← atEnd then pure none else some <$> readStr overflow truncated notUtf8

def readXattrName : PayloadDecoder String := do
  need 1 (.malformed "FILE_ENTRY: truncated xattr name length")
  let nameLen ← varint
  refuse (maxXattrNameLen < nameLen) (.invalidManifest
    s!"xattr name length {nameLen} exceeds MAX_XATTR_NAME_LEN {maxXattrNameLen}")
  checkedAdd nameLen (.malformed "FILE_ENTRY: xattr name offset overflow")
  need nameLen (.malformed "FILE_ENTRY: truncated xattr name")
  let name ← readUtf8 nameLen "FILE_ENTRY: xattr name not valid UTF-8"
  let quoted := name.quote
  refuse (name = "" ∨ name.toList.any isControl) (.invalidManifest s!"invalid xattr name: {quoted}")
  return name

def readXattrValue : PayloadDecoder Bytes := do
  need 1 (.malformed "FILE_ENTRY: truncated xattr value length")
  let valLen ← varint
  refuse (maxXattrValueLen < valLen) (.invalidManifest
    s!"xattr value length {valLen} exceeds MAX_XATTR_VALUE_LEN {maxXattrValueLen}")
  checkedAdd valLen (.malformed "FILE_ENTRY: xattr value offset overflow")
  need valLen (.malformed "FILE_ENTRY: truncated xattr value")
  take valLen

def xattrSize (x : String × Bytes) : ℕ := (utf8 x.1).length + x.2.length

def readXattrs : ℕ → ℕ → PayloadDecoder (List (String × Bytes))
  | 0, _ => pure []
  | count + 1, totalXattrBytes => do
    let name ← readXattrName
    let val ← readXattrValue
    let total := totalXattrBytes + xattrSize (name, val)
    refuse (2 ^ 64 ≤ total) (.invalidManifest "xattr byte count overflow")
    refuse (maxTotalXattrBytes < total) (.invalidManifest
      s!"total xattr bytes {total} exceeds MAX_TOTAL_XATTR_BYTES {maxTotalXattrBytes}")
    let later ← readXattrs count total
    return (name, val) :: later

def readXattrSection : PayloadDecoder (List (String × Bytes)) := do
  need 1 (.malformed "FILE_ENTRY: truncated xattr count")
  let xattrCount ← varint
  refuse (maxXattrCount < xattrCount) (.invalidManifest
    s!"xattr count {xattrCount} exceeds MAX_XATTR_COUNT {maxXattrCount}")
  readXattrs xattrCount 0

def decodeFileEntry : PayloadDecoder FileEntry := do
  let flags ← FileFlags.mk <$> varint64
  let path ← readPath
  checkedAdd (8 + 4 + 8 + 4 + 32) (.malformed "FILE_ENTRY: metadata offset overflow")
  need (8 + 4 + 8 + 4 + 32) (.malformed "FILE_ENTRY: truncated metadata fields")
  let size ← u64
  let mode ← u32
  let mtimeSec ← u64
  let mtimeNsec ← u32
  let fileHash ← readHash "FILE_ENTRY: invalid hash"
  need 1 (.malformed "FILE_ENTRY: truncated chunk count")
  let chunkCount ← varint
  refuse (maxWireChunks < chunkCount) (.invalidManifest
    s!"chunk count {chunkCount} exceeds MAX_WIRE_CHUNKS")
  let (chunks, runningSum) ← readChunks chunkCount 0
  let pathStr := path.str
  refuse (flags.fileType = .regular ∧ ¬ flags.isHardlink ∧ runningSum ≠ size.toNat) (.invalidManifest
    s!"declared size ({size}) does not match sum of chunk lengths ({runningSum}) for {pathStr}")
  let symlinkTarget ← onFlag (flags.fileType = .symlink) none
    (readTarget "FILE_ENTRY: symlink target offset overflow" "FILE_ENTRY: truncated symlink target"
      "FILE_ENTRY: symlink target is not UTF-8")
  let hardlinkTarget ← onFlag flags.isHardlink none
    (readTarget "FILE_ENTRY: hardlink target offset overflow"
      "FILE_ENTRY: truncated hardlink target" "FILE_ENTRY: hardlink target is not UTF-8")
  let xattrs ← onFlag flags.hasXattrs [] readXattrSection
  return { flags, path, size, mode, mtimeSec := mtimeSec.toInt64, mtimeNsec, fileHash, chunks,
           symlinkTarget, hardlinkTarget, xattrs }

structure XattrChecked (x : String × Bytes) : Prop where
  name_len : (utf8 x.1).length ≤ maxXattrNameLen
  name_text : ¬ (x.1 = "" ∨ x.1.toList.any isControl)
  value_len : x.2.length ≤ maxXattrValueLen

structure FileEntry.Checked (e : FileEntry) : Prop where
  path_len : (utf8 e.path.str).length ≤ maxPathTotal
  path_valid : ∃ p, VPath.validate e.path.str = .ok p
  chunk_count : e.chunks.length ≤ maxWireChunks
  chunk_length : ∀ c ∈ e.chunks, c.length.toNat ≤ maxChunkSize
  size_eq : e.flags.fileType = .regular → ¬ e.flags.isHardlink →
    (e.chunks.map fun c => c.length.toNat).sum = e.size.toNat
  xattr_count : e.flags.hasXattrs → e.xattrs.length ≤ maxXattrCount
  xattr_checked : e.flags.hasXattrs → ∀ x ∈ e.xattrs, XattrChecked x
  xattr_bytes : e.flags.hasXattrs → (e.xattrs.map xattrSize).sum ≤ maxTotalXattrBytes

def ChunkDesc.canonical (c : ChunkDesc) : ChunkDesc :=
  { c with hash := if ¬ c.flags.isHole then some (c.hash.getD Hash.zero) else none }

def FileEntry.canonical : FileEntry :=
  { e with
    chunks := e.chunks.map ChunkDesc.canonical
    symlinkTarget := if e.flags.fileType = .symlink then some (e.symlinkTarget.getD "") else none
    hardlinkTarget := if e.flags.isHardlink then some (e.hardlinkTarget.getD "") else none
    xattrs := if e.flags.hasXattrs then e.xattrs else [] }

structure FileEntry.Canonical (e : FileEntry) : Prop where
  chunk_hash : ∀ c ∈ e.chunks, c.hash.isSome ↔ ¬ c.flags.isHole
  symlink : e.symlinkTarget.isSome ↔ e.flags.fileType = .symlink
  hardlink : e.hardlinkTarget.isSome ↔ e.flags.isHardlink
  xattrs : e.xattrs ≠ [] → e.flags.hasXattrs

def FileEntry.preamble (n : ℕ) : Bytes :=
  [encodeVarint e.flags.bits.toNat, strField e.path.str, u64Field e.size, u32Field e.mode,
    u64Field e.mtimeSec.toUInt64, u32Field e.mtimeNsec, e.fileHash.bytes, encodeVarint n].flatten

inductive FileEntry.Before (e : FileEntry) : Bytes → Prop where
  | flags : e.Before []
  | chunk {n : UInt64} (h : e.chunks.length < n.toNat) :
    e.Before (e.preamble n.toNat ++ e.chunks.flatMap encodeChunkDesc)
  | symlink (h : e.flags.fileType = .symlink) :
    e.Before (e.preamble e.chunks.length ++ e.chunks.flatMap encodeChunkDesc)
  | hardlink (h : e.flags.isHardlink) :
    e.Before (e.preamble e.chunks.length ++ (e.chunks.flatMap encodeChunkDesc ++
      if e.flags.fileType = .symlink then targetField e.symlinkTarget else []))

def Irregular (b : Bytes) : Prop :=
  ∃ (e : FileEntry) (front post : Bytes), e.Before front ∧ b = front ++ post ∧
    (post = [] ∨ Overlong post)

def FileEntry.trailer : Bytes :=
  (if e.flags.fileType = .symlink then targetField e.symlinkTarget else []) ++
    ((if e.flags.isHardlink then targetField e.hardlinkTarget else []) ++
      if e.flags.hasXattrs then encodeVarint e.xattrs.length ++ e.xattrs.flatMap xattrField else [])

end Velcrux.Manifest
