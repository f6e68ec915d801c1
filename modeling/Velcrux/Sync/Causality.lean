import Velcrux.Sync.Geo

/-!
# Calls on one coordinator

The causality law for a call, and `StartsHighEnough`, which decides it.
-/

namespace Velcrux.Sync

inductive GeoCall where
  | mutation (nowMs : ℕ) (relPath : String) (size : ℕ) (hash : Hash) (payload : Option Bytes)
  | deletion (nowMs : ℕ) (relPath : String)
  | remote (change : ReplicationChange)

namespace GeoReplicationCoordinator

def call (H : HashFn) (c : GeoReplicationCoordinator) :
    GeoCall → GeoReplicationCoordinator × Option ReplicationChange
  | .mutation nowMs relPath size hash payload =>
    let r := c.recordLocalMutation nowMs relPath size hash payload
    (r.1, some r.2)
  | .deletion nowMs relPath =>
    let r := c.recordLocalDeletion H nowMs relPath
    (r.1, some r.2)
  | .remote change => ((c.applyRemoteChange change).1, none)

def Along (H : HashFn) (P : GeoReplicationCoordinator → GeoCall → Prop) :
    GeoReplicationCoordinator → List GeoCall → Prop
  | _, [] => True
  | c, op :: ops => P c op ∧ Along H P (c.call H op).1 ops

variable (c : GeoReplicationCoordinator)

def heldClocks (relPath : String) : List VectorClock :=
  ((c.ledger relPath).toList ++ (c.tombstones relPath).toList).map GeoItemMetadata.vectorClock

/-- The clock of a change is greater than every clock held for the path before it. -/
def DominatesHeld (H : HashFn) (c : GeoReplicationCoordinator) (op : GeoCall) : Prop :=
  ∀ change ∈ (c.call H op).2, ∀ held ∈ c.heldClocks change.metadata.relPath,
    change.metadata.vectorClock.compare held = .greater

/-- A clock is overtaken by counting `start` up in one region. Other regions must be covered by
`start` already; in the region itself `start` may be one short when it is ahead elsewhere. -/
def Overtaken (region : String) (held start : VectorClock) : Prop :=
  (∀ r, r ≠ region → held.get r ≤ start.get r) ∧
    (held.get region ≤ start.get region ∨
      held.get region = start.get region + 1 ∧ ∃ r, r ≠ region ∧ held.get r < start.get r)

/-- The clock a local change counts up: a mutation starts from the ledger's clock or an empty one, a
deletion from the ledger's, the tombstone's or an empty one. -/
def startClock : GeoCall → VectorClock
  | .mutation _ relPath _ _ _ => ((c.ledger relPath).map GeoItemMetadata.vectorClock).getD .new
  | .deletion _ relPath => ((c.localMeta relPath).map GeoItemMetadata.vectorClock).getD .new
  | .remote _ => .new

def changedPath : GeoCall → Option String
  | .mutation _ relPath _ _ _ => some relPath
  | .deletion _ relPath => some relPath
  | .remote _ => none

def StartsHighEnough (op : GeoCall) : Prop :=
  ∀ relPath ∈ changedPath op, (c.startClock op).get c.localRegion < u64Max ∧
    ∀ held ∈ c.heldClocks relPath, Overtaken c.localRegion held (c.startClock op)

end GeoReplicationCoordinator

end Velcrux.Sync
