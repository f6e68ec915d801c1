import Velcrux.TxSnapshot.Catalog

/-!
# The transactional snapshot engine

`TxSnapshotEngine` on one root directory: the catalog, the directories `staged/<tx_id>`, and the
files under `versions`. Clock readings and the order of a pass over a `HashMap` are arguments. Of
the file-system calls, those are modelled as fallible whose errors the engine ignores.
-/

namespace Velcrux.TxSnapshot

structure Removal where
  metadata : Bool
  data : String → Bool

def Removal.full : Removal := ⟨true, fun _ => true⟩

structure Cleanup where
  saved : Bool
  removal : Removal

def Cleanup.full : Cleanup := ⟨true, .full⟩

structure Engine where
  nodeId : String
  catalog : SnapshotCatalog
  metas : String → Option ActiveTxMeta
  data : String → String → Option Bytes
  versions : String → Option Bytes

namespace Engine

def new (nodeId : String) : Engine where
  nodeId := nodeId
  catalog := ⟨0, .initial nodeId, .empty, fun _ => none, fun _ => []⟩
  metas := fun _ => none
  data := fun _ _ => none
  versions := fun _ => none

variable (H : HashFn) (e : Engine)

def loadTxMeta (txId : String) : Except VelcruxError ActiveTxMeta :=
  match e.metas txId with
  | none => .error (.internal s!"transaction '{txId}' not found")
  | some info => .ok info

def saveTxMeta (info : ActiveTxMeta) : Engine :=
  { e with metas := Function.update e.metas info.txId (some info) }

def removeStaged (txId : String) (removal : Removal) : Engine :=
  { e with
    metas := if removal.metadata then Function.update e.metas txId none else e.metas
    data := Function.update e.data txId fun name =>
      if removal.data name then none else e.data txId name }

def newTxId (author : String) (nanos secs : ℕ) : String :=
  let digest := H (Wire.utf8 s!"{e.nodeId}:{author}:{nanos}")
  s!"tx-{secs}-{digest.shortHex 8}"

/-- `begin_tx`. The id is given out even if there is a transaction of that name; the data in its directory
stays. -/
def beginTx (author : Option String) (nanos secs createdSecs : ℕ) : Engine × String :=
  let author := author.getD e.nodeId
  let txId := e.newTxId H author nanos secs
  (e.saveTxMeta ⟨txId, author, .active, createdSecs, e.catalog.vectorClock, .empty, none⟩, txId)

def bufferData (txId name : String) (bytes : Bytes) : Engine :=
  { e with data := Function.update e.data txId (Function.update (e.data txId) name (some bytes)) }

def stageOp (info : ActiveTxMeta) (op : StagedFileOp) : Engine :=
  e.saveTxMeta { info with stagedOps := info.stagedOps.insert op.path op }

def stageFile (txId path : String) (data : Bytes) (expectedBaseVersion : Option ℕ) (nanos : ℕ) :
    Engine × Except VelcruxError StagedFileOp :=
  match e.loadTxMeta txId with
  | .error err => (e, .error err)
  | .ok info =>
    if info.state ≠ .active then
      (e, .error (.internal s!"cannot stage files: transaction '{txId}' is {info.state}"))
    else
      let hash := H data
      let relDataFile := s!"data_{hash.shortHex 16}_{nanos}.bin"
      let op := ⟨cleanPath path, .write, data.length, hash, relDataFile, expectedBaseVersion⟩
      ((e.bufferData txId relDataFile data).stageOp info op, .ok op)

def stageDelete (txId path : String) (expectedBaseVersion : Option ℕ) :
    Engine × Except VelcruxError StagedFileOp :=
  match e.loadTxMeta txId with
  | .error err => (e, .error err)
  | .ok info =>
    if info.state ≠ .active then
      (e, .error (.internal s!"cannot stage delete: transaction '{txId}' is {info.state}"))
    else
      let op := ⟨cleanPath path, .delete, 0, .zero, "", expectedBaseVersion⟩
      (e.stageOp info op, .ok op)

def prepare2pc (txId : String) (participants : List String)
    (pass : Iteration (String × StagedFileOp)) : Engine × Except VelcruxError TwoPhasePrepare :=
  match e.loadTxMeta txId with
  | .error err => (e, .error err)
  | .ok info =>
    if info.state ≠ .active then
      (e, .error (.internal s!"cannot prepare: transaction '{txId}' is {info.state}"))
    else
      match (pass.order info.stagedOps.entries).findSome? fun x =>
          (e.catalog.conflict x.2).map fun c => (x.2.path, c.1, c.2) with
      | some (path, base, latest) =>
        (e, .error (.internal (s!"OCC conflict on path '{path}': expected base revision {base} " ++
          s!"but latest committed revision is {latest}")))
      | none =>
        let ops := info.stagedOps.entries.map Prod.snd
        let prepare := ⟨txId, e.nodeId, participants, ops, computeStagingMerkleRoot H ops,
          info.readVectorClock⟩
        (e.saveTxMeta { info with state := .prepared, preparedManifest := some prepare }, .ok prepare)

def abortTx (txId : String) (removal : Removal) : Engine :=
  match e.metas txId with
  | none => e
  | some _ => e.removeStaged txId removal

end Engine

structure Commit where
  nodeId : String
  txId : String
  info : ActiveTxMeta
  votes : List TwoPhaseVote
  snapshotTag : Option String
  timestamp : ℕ
  catalog : SnapshotCatalog
  files : SortedMap String FileRevision

namespace Commit

def start (nodeId txId : String) (info : ActiveTxMeta) (votes : List TwoPhaseVote)
    (snapshotTag : Option String) (timestamp : ℕ) (catalog : SnapshotCatalog) : Commit where
  nodeId := nodeId
  txId := txId
  info := info
  votes := votes
  snapshotTag := snapshotTag
  timestamp := timestamp
  catalog := { catalog with
    vectorClock :=
      (votes.foldl (fun vc v => vc.updateMax v.vectorClock) catalog.vectorClock).increment nodeId
    currentEpoch := catalog.currentEpoch + 1 }
  files :=
    match catalog.snapshots.last? with
    | some (_, latest) => latest.files
    | none => .empty

variable (c : Commit)

def revision (relPath : String) (op : StagedFileOp) : FileRevision :=
  ⟨c.catalog.latest relPath + 1, relPath, op.size, op.hash, c.catalog.vectorClock, c.txId, c.timestamp,
    c.info.authorNode, false, op.versionFileName⟩

def tombstone (relPath : String) : FileRevision :=
  ⟨c.catalog.latest relPath + 1, relPath, 0, .zero, c.catalog.vectorClock, c.txId, c.timestamp,
    c.info.authorNode, true, ""⟩

def record (relPath : String) (r : FileRevision) : SnapshotCatalog :=
  { c.catalog with fileRevisions :=
      Function.update c.catalog.fileRevisions relPath (c.catalog.fileRevisions relPath ++ [r]) }

def promote (relPath : String) (op : StagedFileOp) : Commit :=
  match op.kind with
  | .write =>
    let r := c.revision relPath op
    { c with catalog := c.record relPath r, files := c.files.insert relPath r }
  | .delete => { c with catalog := c.record relPath (c.tombstone relPath), files := c.files.erase relPath }
  | .rename oldPath =>
    let r := c.revision relPath op
    { c with catalog := c.record relPath r, files := (c.files.erase oldPath).insert relPath r }

def promoteAll (ops : List (String × StagedFileOp)) : Commit :=
  ops.foldl (fun c x => c.promote x.1 x.2) c

def snapshotId (H : HashFn) : String :=
  s!"snap-{c.catalog.currentEpoch}-{(computeSnapshotMerkleRoot H c.files).shortHex 8}"

def manifest (H : HashFn) : GlobalSnapshotManifest where
  snapshotId := c.snapshotId H
  tag := c.snapshotTag.getD s!"snapshot-{c.catalog.currentEpoch}"
  epoch := c.catalog.currentEpoch
  vectorClock := c.catalog.vectorClock
  coordinatorNode := c.nodeId
  participantNodes := c.votes.map TwoPhaseVote.nodeId
  files := c.files
  merkleRoot := computeSnapshotMerkleRoot H c.files
  totalFiles := c.files.entries.length
  totalBytes := (c.files.entries.map fun x => x.2.size).sum
  createdAtSecs := c.timestamp
  commitTxId := c.txId

def publish (H : HashFn) : SnapshotCatalog :=
  let m := c.manifest H
  { c.catalog with
    tagToId := Function.update c.catalog.tagToId m.tag (some m.snapshotId)
    snapshots := c.catalog.snapshots.insert m.snapshotId m }

end Commit

/-- The loop over the staged operations, one of them: what it does to the files under `versions`. A file
that is there is not written again, and contents that are missing are not copied. -/
def copyVersion (data versions : String → Option Bytes) (op : StagedFileOp) : String → Option Bytes :=
  match op.kind, data op.stagedDataRelPath, versions op.versionFileName with
  | .delete, _, _ => versions
  | _, some bytes, none => Function.update versions op.versionFileName (some bytes)
  | _, _, _ => versions

def firstAbort (votes : List TwoPhaseVote) : Option (String × String) :=
  votes.findSome? fun v =>
    match v.vote with
    | .commit => none
    | .abort reason => some (v.nodeId, reason)

namespace Engine

variable (H : HashFn) (e : Engine)

def admit2pc (txId : String) (votes : List TwoPhaseVote) (removal : Removal) :
    Engine × Except VelcruxError ActiveTxMeta :=
  match e.loadTxMeta txId with
  | .error err => (e, .error err)
  | .ok info =>
    if info.state ≠ .prepared then
      (e, .error (.internal
        s!"cannot commit: transaction '{txId}' is {info.state} (must be Prepared)"))
    else
      match firstAbort votes with
      | some (node, reason) =>
        (e.abortTx txId removal,
          .error (.internal s!"2PC aborted due to participant '{node}': {reason}"))
      | none => (e, .ok info)

def finish2pc (txId : String) (info : ActiveTxMeta) (cleanup : Cleanup) : Engine :=
  let e := if cleanup.saved then e.saveTxMeta { info with state := .committed } else e
  e.removeStaged txId cleanup.removal

/-- Phase two: the votes are counted, every staged operation becomes a revision in the order of the
pass, and the new manifest is published. The versions expected by the operations were compared in
phase one only. -/
def commit2pc (txId : String) (votes : List TwoPhaseVote) (snapshotTag : Option String)
    (timestamp : ℕ) (pass : Iteration (String × StagedFileOp)) (cleanup : Cleanup) :
    Engine × Except VelcruxError GlobalSnapshotManifest :=
  match e.admit2pc txId votes cleanup.removal with
  | (e, .error err) => (e, .error err)
  | (e, .ok info) =>
    let ops := pass.order info.stagedOps.entries
    let c := (Commit.start e.nodeId txId info votes snapshotTag timestamp e.catalog).promoteAll ops
    let versions := ops.foldl (fun versions x => copyVersion (e.data txId) versions x.2) e.versions
    let e := { e with versions := versions, catalog := c.publish H }
    (e.finish2pc txId info cleanup, .ok (c.manifest H))

end Engine

end Velcrux.TxSnapshot
