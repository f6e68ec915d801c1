import Velcrux.Consensus.Cluster

/-!
# The metadata of the replicas

A lease gets its times from the clock of the node that applies its command.
-/

namespace Velcrux.Consensus

def epochFence (commands : List RaftCommand) : String → Option ℕ :=
  commands.foldl (fun fence command =>
    match command with
    | .fenceEpoch nodeId minValidEpoch => Function.update fence nodeId (some minValidEpoch)
    | _ => fence) fun _ => none

def Grants (before : List RaftCommand) (command : RaftCommand) (resource holder : String) : Prop :=
  ∃ ttlMs epoch, command = .acquireLease resource holder ttlMs epoch ∧
    ∀ minEpoch, epochFence before holder = some minEpoch → minEpoch ≤ epoch

def Stands (commands : List RaftCommand) (k : ℕ) (resource holder : String) : Prop :=
  (∃ command, commands[k]? = some command ∧ Grants (commands.take k) command resource holder) ∧
  ∀ j command, k < j → commands[j]? = some command →
    command ≠ .releaseLease resource holder ∧ ∀ other, ¬ Grants (commands.take j) command resource other

namespace Cluster

/-- Nodes that have applied the same commands should have the same metadata. -/
def ReplicasAgree (members : Finset String) (c : Cluster) : Prop :=
  ∀ a ∈ members, ∀ b ∈ members, (c.nodes a).lastApplied = (c.nodes b).lastApplied →
    (c.nodes a).stateMachine = (c.nodes b).stateMachine

def ClocksAgree (members : Finset String) (c : Cluster) : Prop :=
  ∀ a ∈ members, ∀ b ∈ members, (c.nodes a).lastApplied = (c.nodes b).lastApplied →
    ∀ k resource holder, Stands ((c.nodes a).applied.map Application.command) k resource holder →
      ((c.nodes a).applied[k]?).map Application.nowSecs = ((c.nodes b).applied[k]?).map Application.nowSecs

end Cluster

end Velcrux.Consensus
