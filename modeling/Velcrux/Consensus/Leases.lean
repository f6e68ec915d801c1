import Velcrux.Consensus.Cluster

/-!
# Leases

What the callers of `acquire_lease` and `release_lease` are told in a run, and what they may expect of it:
one holder of a resource at a time, and epochs that only grow.
-/

namespace Velcrux.Consensus.Cluster

def returned : Cluster × RaftEvent → Option ClusterLease
  | (c, .acquireLease node resource holder ttlMs stampSecs nowSecs leaseSecs) =>
    ((c.nodes node).acquireLease resource holder ttlMs stampSecs nowSecs leaseSecs).2.toOption
  | _ => none

def Released (resource holder : String) : Cluster × RaftEvent → Prop
  | (c, .releaseLease node resource' holder' stampSecs nowSecs) =>
    resource' = resource ∧ holder' = holder ∧
      ((c.nodes node).releaseLease resource' holder' stampSecs nowSecs).2.toOption = some true
  | _ => False

def Earlier (h : List (Cluster × RaftEvent)) (x1 x2 : Cluster × RaftEvent)
    (before between : List (Cluster × RaftEvent)) : Prop :=
  ∃ after, h = after ++ x2 :: (between ++ x1 :: before)

/-- Of two leases on a resource, the earlier one has the same holder, is expired when the later one is
granted, or was released between; and the epoch of the later one is greater. -/
def LeasesSafe (h : List (Cluster × RaftEvent)) : Prop :=
  ∀ x1 x2 before between, Earlier h x1 x2 before between →
    ∀ lease1 ∈ returned x1, ∀ lease2 ∈ returned x2, lease1.resource = lease2.resource →
      (lease1.holder ≠ lease2.holder →
        lease1.isActive lease2.grantedAtSecs = false ∨
          ∃ y ∈ between, Released lease1.resource lease1.holder y) ∧
      lease1.epoch < lease2.epoch

/-! ## The condition -/

structure LeaseRequest where
  node : String
  resource : String
  holder : String
  ttlMs : ℕ
  leaseSecs : ℕ
deriving DecidableEq

def leaseAsked : Cluster × RaftEvent → Option LeaseRequest
  | (c, .acquireLease node resource holder ttlMs _ _ leaseSecs) =>
    if (c.nodes node).role = .leader then some ⟨node, resource, holder, ttlMs, leaseSecs⟩ else none
  | _ => none

def ReleaseAsked (resource holder : String) : Cluster × RaftEvent → Prop
  | (c, .releaseLease node resource' holder' _ _) =>
    resource' = resource ∧ holder' = holder ∧ (c.nodes node).role = .leader
  | _ => False

def isAcquire : RaftEvent → Bool
  | .acquireLease .. => true
  | _ => false

def acquireCalls (node : String) (h : List (Cluster × RaftEvent)) : ℕ :=
  h.countP fun x => isAcquire x.2 && x.2.node = node

/-- Of two requests for a resource, the earlier one is for the same holder, its time is over at the
later one, or a leader was asked to release it between; and `acquire_lease` was called more often on the
node of the later one, before it, than on the node of the earlier one, before that. -/
def RequestsApart (h : List (Cluster × RaftEvent)) : Prop :=
  ∀ x1 x2 before between, Earlier h x1 x2 before between →
    ∀ r1 ∈ leaseAsked x1, ∀ r2 ∈ leaseAsked x2, r1.resource = r2.resource →
      (r1.holder ≠ r2.holder →
        r1.leaseSecs + max (r1.ttlMs / 1000) 1 ≤ r2.leaseSecs ∨
          ∃ y ∈ between, ReleaseAsked r1.resource r1.holder y) ∧
      acquireCalls r1.node before < acquireCalls r2.node (between ++ x1 :: before)

end Velcrux.Consensus.Cluster
