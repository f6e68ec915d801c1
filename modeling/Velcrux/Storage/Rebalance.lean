import Velcrux.Storage.Cluster

/-!
# Rebalancing a cluster

`register_node` and `rebalance` of `ClusteredChunkStore`.
-/

namespace Velcrux.Storage

structure ClusterNode where
  id : String
  vnodes : ℕ
  state : ClusterNodeState
  weight : ℕ

namespace ConsistentHashRing

def addNode (H : HashFn) (ring : ConsistentHashRing) (node : ClusterNode) : ConsistentHashRing where
  nodes := insert node.id ring.nodes
  tokens := (List.range (node.vnodes * max node.weight 1)).foldl
    (fun tokens i => tokens.insert (hashKey H (Wire.utf8 s!"{node.id}:{i}")) node.id) ring.tokens

end ConsistentHashRing

structure ClusterMembers where
  ring : ConsistentHashRing
  nodes : SortedMap String ClusterNode
  registered : ∀ id, id ∈ ring.nodes ↔ (nodes.get? id).isSome

namespace ClusterMembers

def new : ClusterMembers := ⟨⟨.empty, ∅⟩, .empty, by simp⟩

def registerNode (H : HashFn) (c : ClusterMembers) (node : ClusterNode) : ClusterMembers where
  ring := c.ring.addNode H node
  nodes := c.nodes.insert node.id node
  registered id := by
    rw [SortedMap.get?_insert, ConsistentHashRing.addNode, Finset.mem_insert, c.registered,
      eq_comm (a := id)]
    by_cases h : node.id = id <;> simp [h]

end ClusterMembers

structure ReplicationReport where
  chunksInspected : ℕ
  replicasCreated : ℕ
  bytesReplicated : ℕ
  fullyReplicatedChunks : ℕ

/-- What the stores of the nodes hold is given as the digests of the chunks of each node. -/
abbrev Placement := String → Finset Hash

namespace ClusterMembers

variable (H : HashFn) (c : ClusterMembers) (quorum : QuorumPolicy) (held : Placement)

def rebalance : Placement × ReplicationReport :=
  if c.ring.nodes.card = 0 then (held, ⟨0, 0, 0, 0⟩)
  else
    let totalChunks :=
      ((c.nodes.entries.filter fun x => x.2.state.canRead).map fun x => (held x.1).card).sum
    let inspected := totalChunks / max quorum.replicas 1
    (held, ⟨inspected, 0, 0, inspected⟩)

/-! ## The contract -/

def preference (h : Hash) : List String := c.ring.getPreferenceList H h quorum.replicas

def chunks : Finset Hash := (c.nodes.entries.map Prod.fst).toFinset.biUnion held

def FullyReplicated (h : Hash) : Prop := ∀ id ∈ c.preference H quorum h, h ∈ held id

instance (h : Hash) : Decidable (c.FullyReplicated H quorum held h) :=
  inferInstanceAs (Decidable (∀ id ∈ _, _))

def Rebalances : Prop :=
  let (held', report) := c.rebalance quorum held
  (∀ h ∈ c.chunks held, c.FullyReplicated H quorum held' h) ∧
    report.chunksInspected = (c.chunks held).card ∧
    report.replicasCreated =
      ∑ h ∈ c.chunks held, ((c.preference H quorum h).filter fun id => h ∉ held id).length ∧
    report.fullyReplicatedChunks =
      ((c.chunks held).filter (c.FullyReplicated H quorum held')).card

def copies : ℕ := (c.nodes.entries.map fun x => (held x.1).card).sum

end ClusterMembers

end Velcrux.Storage
