import Velcrux.Foundations.SortedMap
import Velcrux.Wire.Basic

/-!
# Snapshots and their catalog

The data of `txsnapshot`. A `BTreeMap` is a sorted map; a `HashMap` is a function, or, where it is
iterated, a sorted map with the order of each pass. Epochs and revision numbers count commits, so
that their width plays no part.
-/

namespace Velcrux.TxSnapshot

open LittleEndian Wire

structure TxVectorClock where
  clock : SortedMap String UInt64

namespace TxVectorClock

def new : TxVectorClock := ⟨.empty⟩

def get (vc : TxVectorClock) (node : String) : UInt64 := (vc.clock.get? node).getD 0

def increment (vc : TxVectorClock) (node : String) : TxVectorClock :=
  ⟨vc.clock.insert node (vc.get node + 1)⟩

def initial (node : String) : TxVectorClock := new.increment node

variable (vc other : TxVectorClock)

def updateMax : TxVectorClock :=
  other.clock.entries.foldl (fun vc x => ⟨vc.clock.insert x.1 (max x.2 (vc.get x.1))⟩) vc

def merge : TxVectorClock := vc.updateMax other

def isCausallyBefore : Bool :=
  !(vc.clock.entries.any fun x => other.get x.1 < x.2) &&
    ((vc.clock.entries.any fun x => x.2 < other.get x.1) ||
      other.clock.entries.any fun x => (vc.clock.get? x.1).isNone && 0 < x.2)

def isConcurrent : Bool :=
  !vc.isCausallyBefore other && !other.isCausallyBefore vc &&
    vc.clock.entries ≠ other.clock.entries

end TxVectorClock

inductive TxState where
  | active
  | prepared
  | committed
  | aborted
deriving DecidableEq

instance : ToString TxState where
  toString
    | .active => "Active"
    | .prepared => "Prepared"
    | .committed => "Committed"
    | .aborted => "Aborted"

inductive FileOpKind where
  | write
  | delete
  | rename (oldPath : String)
deriving DecidableEq

structure StagedFileOp where
  path : String
  kind : FileOpKind
  size : ℕ
  hash : Hash
  stagedDataRelPath : String
  expectedBaseVersion : Option ℕ
deriving DecidableEq

structure FileRevision where
  revisionId : ℕ
  path : String
  size : ℕ
  hash : Hash
  vectorClock : TxVectorClock
  txId : String
  committedAtSecs : ℕ
  authorNode : String
  isTombstone : Bool
  contentRef : String

structure GlobalSnapshotManifest where
  snapshotId : String
  tag : String
  epoch : ℕ
  vectorClock : TxVectorClock
  coordinatorNode : String
  participantNodes : List String
  files : SortedMap String FileRevision
  merkleRoot : Hash
  totalFiles : ℕ
  totalBytes : ℕ
  createdAtSecs : ℕ
  commitTxId : String

structure TwoPhasePrepare where
  txId : String
  coordinator : String
  participants : List String
  stagedOps : List StagedFileOp
  stagingMerkleRoot : Hash
  readVectorClock : TxVectorClock

inductive VoteKind where
  | commit
  | abort (reason : String)
deriving DecidableEq

structure TwoPhaseVote where
  nodeId : String
  vote : VoteKind
  vectorClock : TxVectorClock

structure ActiveTxMeta where
  txId : String
  authorNode : String
  state : TxState
  createdAtSecs : ℕ
  readVectorClock : TxVectorClock
  stagedOps : SortedMap String StagedFileOp
  preparedManifest : Option TwoPhasePrepare

structure SnapshotCatalog where
  currentEpoch : ℕ
  vectorClock : TxVectorClock
  snapshots : SortedMap String GlobalSnapshotManifest
  tagToId : String → Option String
  fileRevisions : String → List FileRevision

structure Iteration (α : Type) where
  order : List α → List α
  perm (xs : List α) : (order xs).Perm xs

def Iteration.sorted {α : Type} : Iteration α := ⟨id, fun _ => .refl _⟩

def cleanPath (path : String) : String := String.ofList (path.toList.dropWhile (· = '/'))

def StagedFileOp.versionFileName (op : StagedFileOp) : String := op.hash.toHex ++ ".bin"

def SnapshotCatalog.latest (c : SnapshotCatalog) (path : String) : ℕ :=
  ((c.fileRevisions path).getLast?.map FileRevision.revisionId).getD 0

def SnapshotCatalog.conflict (c : SnapshotCatalog) (op : StagedFileOp) : Option (ℕ × ℕ) :=
  match op.expectedBaseVersion, (c.fileRevisions op.path).getLast? with
  | some base, some latest => if base < latest.revisionId then some (base, latest.revisionId) else none
  | _, _ => none

def FileOpKind.digest : FileOpKind → Bytes
  | .write => utf8 "WRITE"
  | .delete => utf8 "DELETE"
  | .rename oldPath => utf8 "RENAME" ++ utf8 oldPath

def StagedFileOp.digestFields (op : StagedFileOp) : Bytes :=
  utf8 op.path ++ encodeLE 8 op.size ++ op.hash.bytes ++ op.kind.digest ++
    encodeLE 8 (op.expectedBaseVersion.getD 0)

def StagedFileOp.sorted (ops : List StagedFileOp) : List StagedFileOp :=
  ops.insertionSort fun a b => a.path ≤ b.path

/-- What `compute_staging_merkle_root` hashes. -/
def StagedFileOp.digest (ops : List StagedFileOp) : Bytes :=
  utf8 "velcrux:txsnapshot:staging_merkle:v1\n" ++ (sorted ops).flatMap digestFields

def computeStagingMerkleRoot (H : HashFn) (ops : List StagedFileOp) : Hash :=
  H (StagedFileOp.digest ops)

def FileRevision.digestFields (x : String × FileRevision) : Bytes :=
  utf8 x.1 ++ encodeLE 8 x.2.size ++ x.2.hash.bytes ++ encodeLE 8 x.2.revisionId

/-- What `compute_snapshot_merkle_root` hashes. -/
def FileRevision.digest (files : SortedMap String FileRevision) : Bytes :=
  utf8 "velcrux:txsnapshot:manifest_merkle:v1\n" ++ files.entries.flatMap digestFields

def computeSnapshotMerkleRoot (H : HashFn) (files : SortedMap String FileRevision) : Hash :=
  H (FileRevision.digest files)

end Velcrux.TxSnapshot
