import Velcrux.Foundations.Transition
import Velcrux.Sync.Geo

/-!
# Regions that replicate one path

Each region runs a coordinator.
-/

namespace Velcrux.Sync

structure Cluster where
  regions : List String
  node : String → GeoReplicationCoordinator
  inFlight : List (String × ReplicationChange)

inductive ClusterEvent where
  | write (region : String) (nowMs : ℕ) (size : ℕ) (hash : Hash) (payload : Option Bytes)
  | deliver (index : ℕ)
deriving DecidableEq

def GeoItemMetadata.stamp (m : GeoItemMetadata) : ℕ ×ₗ String :=
  toLex (m.physicalTimeMs, m.originRegion)

namespace Cluster

def Fresh (policy : ConflictPolicy) (s : Cluster) : Prop :=
  s.regions.Nodup ∧ s.inFlight = [] ∧
    ∀ r ∈ s.regions, s.node r = .new r policy (s.regions.filter (· ≠ r))

/-- A local write puts its change on the way to every other region, and each change is delivered
once, in any order. -/
def step (path : String) (s : Cluster) : ClusterEvent → Option Cluster
  | .write region nowMs size hash payload =>
    if region ∈ s.regions then
      let r := (s.node region).recordLocalMutation nowMs path size hash payload
      some { s with
        node := Function.update s.node region r.1
        inFlight := s.inFlight ++ (s.regions.filter (· ≠ region)).map fun dest => (dest, r.2) }
    else none
  | .deliver index =>
    match s.inFlight[index]? with
    | none => none
    | some (dest, change) =>
      some { s with
        node := Function.update s.node dest ((s.node dest).applyRemoteChange change).1
        inFlight := s.inFlight.eraseIdx index }

def hashAt (path : String) (s : Cluster) (region : String) : Option Hash :=
  ((s.node region).ledger path).map GeoItemMetadata.hash

def Converged (path : String) (s : Cluster) : Prop :=
  s.inFlight = [] → ∀ r ∈ s.regions, ∀ r' ∈ s.regions, s.hashAt path r = s.hashAt path r'

/-- A write that last-write-wins can order among the others: the wall clock is past the version the
region holds, and the clock of that version has the region's own counter, which is the number of
changes it has recorded. -/
def OrderlyWrite (path : String) (s : Cluster) : ClusterEvent → Prop
  | .write region nowMs _ _ _ =>
    let held := (s.node region).ledger path
    let counter := ((held.map GeoItemMetadata.vectorClock).getD .new).get region
    (∀ item ∈ held, item.stamp < toLex (nowMs, region)) ∧
      counter + 1 = (s.node region).queue.nextSeq ∧ counter < u64Max
  | .deliver _ => True

instance (path : String) (s : Cluster) (e : ClusterEvent) : Decidable (OrderlyWrite path s e) :=
  match e with
  | .write _ _ _ _ _ => inferInstanceAs (Decidable (_ ∧ _ ∧ _))
  | .deliver _ => inferInstanceAs (Decidable True)

def stamps : List (Cluster × ClusterEvent) → List (ℕ × String)
  | [] => []
  | (_, .write region nowMs _ _ _) :: h => (nowMs, region) :: stamps h
  | (_, .deliver _) :: h => stamps h

end Cluster

end Velcrux.Sync
