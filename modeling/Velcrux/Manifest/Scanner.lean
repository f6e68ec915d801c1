import Velcrux.Chunking.Engine
import Velcrux.Manifest.Stream
import Velcrux.Storage.Xattr

/-!
# Scanning a directory tree

`scan_directory_tree` (`manifest/scanner`): a walk through the tree that visits the entries of every
directory in the order of their names and adds each of them to a manifest writer.
-/

namespace Velcrux.Manifest

open Chunking (ChunkMode ChunkParams chunkReader)
open Protocol (Compressor)
open Storage (VPath sidecarXattrs)
open Wire

namespace FileFlags

def regular : FileFlags := ⟨0⟩

def directory : FileFlags := ⟨1⟩

def symlink : FileFlags := ⟨2⟩

def withSparse (f : FileFlags) (sparse : Bool) : FileFlags :=
  if sparse then ⟨f.bits ||| 0x04⟩ else ⟨f.bits &&& ~~~0x04⟩

def withXattrs (f : FileFlags) (xattrs : Bool) : FileFlags :=
  if xattrs then ⟨f.bits ||| 0x08⟩ else ⟨f.bits &&& ~~~0x08⟩

end FileFlags

def ChunkDesc.ofChunk (H : HashFn) (chunk : Bytes) : ChunkDesc :=
  match (Chunking.ChunkDesc.of H chunk).hash with
  | some hash => ⟨⟨0⟩, UInt64.ofNat chunk.length, some hash⟩
  | none => ⟨⟨1⟩, UInt64.ofNat chunk.length, none⟩

namespace FileEntry

def regular (path : VPath) (size : UInt64) (mode : UInt32) (mtimeSec : Int64) (mtimeNsec : UInt32)
    (fileHash : Hash) (chunks : List ChunkDesc) : FileEntry where
  flags := if chunks.any fun c => c.flags.isHole then FileFlags.regular.withSparse true else .regular
  path := path
  size := size
  mode := mode
  mtimeSec := mtimeSec
  mtimeNsec := mtimeNsec
  fileHash := fileHash
  chunks := chunks
  symlinkTarget := none
  hardlinkTarget := none
  xattrs := []

def directory (path : VPath) (mode : UInt32) (mtimeSec : Int64) (mtimeNsec : UInt32) : FileEntry where
  flags := .directory
  path := path
  size := 0
  mode := mode
  mtimeSec := mtimeSec
  mtimeNsec := mtimeNsec
  fileHash := .zero
  chunks := []
  symlinkTarget := none
  hardlinkTarget := none
  xattrs := []

def symlinkWithTarget (H : HashFn) (path : VPath) (mode : UInt32) (mtimeSec : Int64)
    (mtimeNsec : UInt32) (target : String) : FileEntry where
  flags := .symlink
  path := path
  size := UInt64.ofNat (utf8 target).length
  mode := mode
  mtimeSec := mtimeSec
  mtimeNsec := mtimeNsec
  fileHash := H (utf8 target)
  chunks := []
  symlinkTarget := some target
  hardlinkTarget := none
  xattrs := []

def withXattrs (e : FileEntry) (xattrs : List (String × Bytes)) : FileEntry :=
  { e with flags := e.flags.withXattrs (xattrs ≠ []), xattrs := xattrs }

end FileEntry

/-- What a scan reads of a file that is not a directory. `sidecar` is what reading the file with its
extended attributes returns, if there is one that can be read. -/
structure Leaf where
  mtimeSec : Int64
  mtimeNsec : UInt32
  sidecar : Option Bytes
deriving DecidableEq

mutual

inductive Node where
  | file (leaf : Leaf) (mode : UInt32) (reads : List Bytes)
  | symlink (leaf : Leaf) (target : String)
  | dir (children : Forest)

/-- The entries of a directory, in the order in which `read_dir` returns them. -/
inductive Forest where
  | nil
  | cons (name : String) (node : Node) (rest : Forest)

end

namespace Forest

def names : Forest → List String
  | .nil => []
  | .cons name _ rest => name :: rest.names

def insert (name : String) (node : Node) : Forest → Forest
  | .nil => .cons name node .nil
  | .cons name' node' rest =>
    if name ≤ name' then .cons name node (.cons name' node' rest)
    else .cons name' node' (insert name node rest)

end Forest

mutual

def Node.WellFormed : Node → Prop
  | .file .. => True
  | .symlink .. => True
  | .dir children => children.WellFormed

def Forest.WellFormed : Forest → Prop
  | .nil => True
  | .cons name node rest =>
    (name ≠ "" ∧ '/' ∉ name.toList) ∧ name ∉ rest.names ∧ node.WellFormed ∧ rest.WellFormed

end

structure DirectoryTree where
  root : Forest
  wellFormed : root.WellFormed

mutual

def Node.sorted : Node → Node
  | .file leaf mode reads => .file leaf mode reads
  | .symlink leaf target => .symlink leaf target
  | .dir children => .dir children.sorted

def Forest.sorted : Forest → Forest
  | .nil => .nil
  | .cons name node rest => rest.sorted.insert name node.sorted

end

/-! ## The walk -/

def isSkipped (name : String) : Bool :=
  [".velcrux-staging", ".velcrux-chunks", ".velcrux-journal", ".velcrux-backup",
      ".velcrux-shadow"].any (fun s => s.toList.isPrefixOf name.toList) ||
    [".velcrux-partial", ".velcrux-xattr", ".velcrux-manifest.sig"].any fun s =>
      s.toList.isSuffixOf name.toList

def scannerBufferSize : ℕ := 2 * 1024 * 1024

def scanPath (path : String) : Except Failure VPath :=
  match VPath.validate path with
  | .ok vpath => .ok vpath
  | .error e => .error (.error (invalidManifest e.text))

def joinPath (dir name : String) : String := if dir = "" then name else dir ++ "/" ++ name

variable (Z : Compressor) (H : HashFn) (mode : ChunkMode) (params : ChunkParams)

def scanLeaf (path : String) : Node → Except Failure FileEntry
  | .file leaf fileMode reads => do
    let vpath ← scanPath path
    let xattrs ← sidecarXattrs leaf.sidecar
    let chunks ← chunkReader mode params scannerBufferSize reads
    let entry := FileEntry.regular vpath (UInt64.ofNat reads.flatten.length) fileMode leaf.mtimeSec
      leaf.mtimeNsec (H reads.flatten) (chunks.map fun c => ChunkDesc.ofChunk H c.2)
    return entry.withXattrs xattrs
  | .symlink leaf target => do
    let vpath ← scanPath path
    let xattrs ← sidecarXattrs leaf.sidecar
    let entry := FileEntry.symlinkWithTarget H vpath 0o777 leaf.mtimeSec leaf.mtimeNsec target
    return entry.withXattrs xattrs
  | .dir _ => do
    let vpath ← scanPath path
    return FileEntry.directory vpath 0o755 0 0

def addScanned (w : ManifestWriter) (entry : FileEntry) : Except Failure ManifestWriter :=
  match w.addEntry Z entry with
  | .ok w => .ok w
  | .error e => .error (.error e)

mutual

def scanNode (path : String) (w : ManifestWriter) : Node → Except Failure ManifestWriter
  | .file leaf fileMode reads => do
    let entry ← scanLeaf H mode params path (.file leaf fileMode reads)
    addScanned Z w entry
  | .symlink leaf target => do
    let entry ← scanLeaf H mode params path (.symlink leaf target)
    addScanned Z w entry
  | .dir children => do
    let entry ← scanLeaf H mode params path (.dir children)
    let w ← addScanned Z w entry
    scanForest path w children

def scanForest (dir : String) (w : ManifestWriter) : Forest → Except Failure ManifestWriter
  | .nil => .ok w
  | .cons name node rest =>
    if isSkipped name then scanForest dir w rest
    else do
      let w ← scanNode (joinPath dir name) w node
      scanForest dir w rest

end

variable (tree : DirectoryTree)

def scanDirectoryTreeWithMode (w : ManifestWriter) : Except Failure ManifestWriter :=
  scanForest Z H mode params "" w tree.root.sorted

def scanDirectoryTree (w : ManifestWriter) : Except Failure ManifestWriter :=
  scanDirectoryTreeWithMode Z H .cdc .default tree w

def manifestOfTree : Except Failure (ManifestBegin × ManifestEnd × Bytes) := do
  let w ← scanDirectoryTree Z H tree (.new params)
  match w.finish Z H with
  | .ok written => return written
  | .error e => throw (.error e)

mutual

def Node.listing (path : String) : Node → Except Failure (List FileEntry)
  | .file leaf fileMode reads => do
    let entry ← scanLeaf H mode params path (.file leaf fileMode reads)
    return [entry]
  | .symlink leaf target => do
    let entry ← scanLeaf H mode params path (.symlink leaf target)
    return [entry]
  | .dir children => do
    let entry ← scanLeaf H mode params path (.dir children)
    let later ← children.listing path
    return entry :: later

def Forest.listing (dir : String) : Forest → Except Failure (List FileEntry)
  | .nil => .ok []
  | .cons name node rest =>
    if isSkipped name then rest.listing dir
    else do
      let here ← node.listing (joinPath dir name)
      let later ← rest.listing dir
      return here ++ later

end

def DirectoryTree.entries : Except Failure (List FileEntry) :=
  tree.root.sorted.listing H .cdc .default ""

end Velcrux.Manifest
