import Velcrux.Foundations.SortedMap
import Velcrux.Util
import Velcrux.Error

/-!
# Geo-replication

`sync/geo`: each region keeps, per path, the metadata of the version it holds, or a tombstone.
-/

namespace Velcrux.Sync

open Function

inductive ClockOrdering where
  | equal
  | greater
  | less
  | concurrent
deriving DecidableEq

structure VectorClock where
  clocks : SortedMap String ℕ
deriving DecidableEq

namespace VectorClock

def new : VectorClock := ⟨.empty⟩

def get (c : VectorClock) (region : String) : ℕ := (c.clocks.get? region).getD 0

/-- `VectorClock::increment`. The addition wraps in a release build. -/
def increment (c : VectorClock) (region : String) : VectorClock :=
  ⟨c.clocks.insert region ((c.get region + 1) % 2 ^ 64)⟩

def merge (c other : VectorClock) : VectorClock :=
  other.clocks.entries.foldl
    (fun acc entry => ⟨acc.clocks.insert entry.1 (max (acc.get entry.1) entry.2)⟩) c

def compare (c other : VectorClock) : ClockOrdering :=
  let allRegions := c.clocks.keys ++ other.clocks.keys
  let hasGreater := allRegions.any fun region => other.get region < c.get region
  let hasLess := allRegions.any fun region => c.get region < other.get region
  match hasGreater, hasLess with
  | false, false => .equal
  | true, false => .greater
  | false, true => .less
  | true, true => .concurrent

end VectorClock

inductive ConflictPolicy where
  | lastWriteWins
  | primaryAuthority (primaryRegion : String)
  | keepBoth
  | rejectConcurrent
deriving DecidableEq

structure GeoItemMetadata where
  relPath : String
  size : ℕ
  hash : Hash
  vectorClock : VectorClock
  physicalTimeMs : ℕ
  originRegion : String
  isTombstone : Bool
deriving DecidableEq

namespace GeoItemMetadata

def file (nowMs : ℕ) (relPath : String) (size : ℕ) (hash : Hash) (vectorClock : VectorClock)
    (originRegion : String) : GeoItemMetadata :=
  ⟨relPath, size, hash, vectorClock, nowMs, originRegion, false⟩

def tombstone (H : HashFn) (nowMs : ℕ) (relPath : String) (vectorClock : VectorClock)
    (originRegion : String) : GeoItemMetadata :=
  ⟨relPath, 0, H [], vectorClock, nowMs, originRegion, true⟩

end GeoItemMetadata

structure ReplicationChange where
  sequenceId : ℕ
  metadata : GeoItemMetadata
  payload : Option Bytes
deriving DecidableEq

inductive ConflictAction where
  | applyRemote
  | keepLocal
  | createBranch (branchPath : String)
  | rejected
deriving DecidableEq

structure ConflictResolutionResult where
  action : ConflictAction
  wasConflict : Bool
  details : String
deriving DecidableEq

structure GeoReplicationQueue where
  outbound : String → List ReplicationChange
  nextSeq : ℕ
  maxQueueDepth : ℕ

namespace GeoReplicationQueue

def new (maxDepth : ℕ) : GeoReplicationQueue := ⟨fun _ => [], 1, max maxDepth 100⟩

def enqueue (q : GeoReplicationQueue) (targetRegions : List String) (metadata : GeoItemMetadata)
    (payload : Option Bytes) : GeoReplicationQueue × ℕ :=
  let change : ReplicationChange := ⟨q.nextSeq, metadata, payload⟩
  let push (outbound : String → List ReplicationChange) (region : String) :=
    if (outbound region).length < q.maxQueueDepth then
      update outbound region (outbound region ++ [change])
    else outbound
  ({ q with outbound := targetRegions.foldl push q.outbound, nextSeq := q.nextSeq + 1 }, q.nextSeq)

end GeoReplicationQueue

/-! ## The coordinator -/

structure GeoReplicationCoordinator where
  localRegion : String
  policy : ConflictPolicy
  regions : List String
  ledger : String → Option GeoItemMetadata
  tombstones : String → Option GeoItemMetadata
  queue : GeoReplicationQueue
  conflictCount : ℕ

namespace GeoReplicationCoordinator

def new (localRegion : String) (policy : ConflictPolicy) (regions : List String) :
    GeoReplicationCoordinator :=
  ⟨localRegion, policy, regions, fun _ => none, fun _ => none, .new 10000, 0⟩

variable (c : GeoReplicationCoordinator)

def recordLocalMutation (nowMs : ℕ) (relPath : String) (size : ℕ)
    (hash : Hash) (payload : Option Bytes) : GeoReplicationCoordinator × ReplicationChange :=
  let tombstones := update c.tombstones relPath none
  let existing := ((c.ledger relPath).map GeoItemMetadata.vectorClock).getD .new
  let vc := existing.increment c.localRegion
  let metadata := GeoItemMetadata.file nowMs relPath size hash vc c.localRegion
  let (queue, seq) := c.queue.enqueue c.regions metadata payload
  ({ c with ledger := update c.ledger relPath (some metadata), tombstones, queue },
    ⟨seq, metadata, payload⟩)

def recordLocalDeletion (H : HashFn) (c : GeoReplicationCoordinator) (nowMs : ℕ)
    (relPath : String) : GeoReplicationCoordinator × ReplicationChange :=
  let existing :=
    match c.ledger relPath with
    | some existing => existing.vectorClock
    | none => ((c.tombstones relPath).map GeoItemMetadata.vectorClock).getD .new
  let vc := existing.increment c.localRegion
  let tombstone := GeoItemMetadata.tombstone H nowMs relPath vc c.localRegion
  let (queue, seq) := c.queue.enqueue c.regions tombstone none
  ({ c with
      ledger := update c.ledger relPath none
      tombstones := update c.tombstones relPath (some tombstone)
      queue },
    ⟨seq, tombstone, none⟩)

def resolveConcurrentConflict (held remote : GeoItemMetadata) : ConflictResolutionResult :=
  match c.policy with
  | .lastWriteWins =>
    if held.physicalTimeMs < remote.physicalTimeMs then
      ⟨.applyRemote, true, s!"Conflict resolved via LWW: Remote ({remote.physicalTimeMs}) newer than Local ({held.physicalTimeMs})"⟩
    else if remote.physicalTimeMs < held.physicalTimeMs then
      ⟨.keepLocal, true, s!"Conflict resolved via LWW: Local ({held.physicalTimeMs}) newer than Remote ({remote.physicalTimeMs})"⟩
    else if held.originRegion < remote.originRegion then
      ⟨.applyRemote, true, "Conflict resolved via LWW tie-breaker: Remote region won"⟩
    else ⟨.keepLocal, true, "Conflict resolved via LWW tie-breaker: Local region won"⟩
  | .primaryAuthority primaryRegion =>
    if remote.originRegion = primaryRegion then
      ⟨.applyRemote, true, s!"Conflict resolved via PrimaryAuthority: Remote is primary ({primaryRegion})"⟩
    else
      ⟨.keepLocal, true, s!"Conflict resolved via PrimaryAuthority: Local kept over non-primary ({remote.originRegion})"⟩
  | .keepBoth =>
    ⟨.createBranch s!"{held.relPath}.conflict-{remote.originRegion}-{remote.physicalTimeMs}", true,
      "Conflict resolved via KeepBoth: remote saved as conflict branch"⟩
  | .rejectConcurrent => ⟨.rejected, true, "Concurrent modification rejected by policy"⟩

/-- A change that comes in is compared by its vector clock, and the conflict policy decides where
neither dominates. -/
def resolve (held : Option GeoItemMetadata) (remote : GeoItemMetadata) : ConflictResolutionResult :=
  match held with
  | none => ⟨.applyRemote, false, "First-time replication of new item"⟩
  | some held =>
    match held.vectorClock.compare remote.vectorClock with
    | .less => ⟨.applyRemote, false, "Remote vector clock strictly dominates local"⟩
    | .greater | .equal =>
      ⟨.keepLocal, false, "Local vector clock is current or strictly dominates remote"⟩
    | .concurrent => c.resolveConcurrentConflict held remote

def localMeta (relPath : String) : Option GeoItemMetadata :=
  (c.ledger relPath).or (c.tombstones relPath)

def mergeClock (clock : VectorClock) (item : GeoItemMetadata) : GeoItemMetadata :=
  { item with vectorClock := item.vectorClock.merge clock }

def applyAction (remote : GeoItemMetadata) : ConflictAction → GeoReplicationCoordinator
  | .applyRemote =>
    if remote.isTombstone then
      { c with
        ledger := update c.ledger remote.relPath none
        tombstones := update c.tombstones remote.relPath (some remote) }
    else
      { c with
        ledger := update c.ledger remote.relPath (some remote)
        tombstones := update c.tombstones remote.relPath none }
  | .createBranch branchPath =>
    let ledger := update c.ledger branchPath (some { remote with relPath := branchPath })
    { c with
      ledger := update ledger remote.relPath
        ((ledger remote.relPath).map (mergeClock remote.vectorClock)) }
  | .keepLocal | .rejected =>
    match c.ledger remote.relPath with
    | some held =>
      { c with ledger := update c.ledger remote.relPath
                (some (mergeClock remote.vectorClock held)) }
    | none =>
      { c with tombstones := update c.tombstones remote.relPath
                ((c.tombstones remote.relPath).map (mergeClock remote.vectorClock)) }

def applyRemoteChange (change : ReplicationChange) :
    GeoReplicationCoordinator × ConflictResolutionResult :=
  let resolution := c.resolve (c.localMeta change.metadata.relPath) change.metadata
  let conflicts := c.conflictCount + if resolution.wasConflict then 1 else 0
  ({ c with conflictCount := conflicts }.applyAction change.metadata resolution.action, resolution)

end GeoReplicationCoordinator

end Velcrux.Sync
