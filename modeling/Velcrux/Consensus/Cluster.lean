import Velcrux.Consensus.Raft
import Velcrux.Foundations.Transition

/-!
# A cluster of Raft nodes

The members of one list, each with its coordinator, and every message that was ever sent: it may be
delivered late, in any order, again, or never.
-/

namespace Velcrux.Consensus

/-- The messages; `dst` is the node that a message is for. A request for votes goes to anybody. -/
inductive RaftMessage where
  | requestVote (req : RequestVoteRequest)
  | voteReply (dst : String) (resp : RequestVoteResponse)
  | appendEntries (dst : String) (req : AppendEntriesRequest)
  | appendReply (dst : String) (resp : AppendEntriesResponse)
deriving DecidableEq

inductive RaftEvent where
  | startElection (node : String)
  | requestVote (node : String) (req : RequestVoteRequest)
  | recordVote (node : String) (resp : RequestVoteResponse) (stampSecs nowSecs : ℕ)
  | createAppendEntries (node peer : String)
  | appendEntries (node : String) (req : AppendEntriesRequest) (nowSecs : ℕ)
  | appendResponse (node : String) (resp : AppendEntriesResponse) (nowSecs : ℕ)
  | propose (node : String) (command : RaftCommand) (stampSecs nowSecs : ℕ)
  | acquireLease (node resource holder : String) (ttlMs stampSecs nowSecs leaseSecs : ℕ)
  | releaseLease (node resource holder : String) (stampSecs nowSecs : ℕ)
deriving DecidableEq

def RaftEvent.node : RaftEvent → String
  | .startElection node => node
  | .requestVote node _ => node
  | .recordVote node _ _ _ => node
  | .createAppendEntries node _ => node
  | .appendEntries node _ _ => node
  | .appendResponse node _ _ => node
  | .propose node _ _ _ => node
  | .acquireLease node _ _ _ _ _ _ => node
  | .releaseLease node _ _ _ _ => node

def RaftEvent.handles : RaftEvent → Option RaftMessage
  | .requestVote _ req => some (.requestVote req)
  | .recordVote node resp _ _ => some (.voteReply node resp)
  | .appendEntries node req _ => some (.appendEntries node req)
  | .appendResponse node resp _ => some (.appendReply node resp)
  | _ => none

def RaftCoordinator.act (s : RaftCoordinator) : RaftEvent → RaftCoordinator × Option RaftMessage
  | .startElection _ =>
    let (s, req) := s.startElection
    (s, some (.requestVote req))
  | .requestVote _ req =>
    let (s, resp) := s.handleRequestVote req
    (s, some (.voteReply req.candidateId resp))
  | .recordVote _ resp stampSecs nowSecs =>
    ((s.recordVote resp.voterId resp.voteGranted resp.term stampSecs nowSecs).1, none)
  | .createAppendEntries _ peer => (s, (s.createAppendEntriesForPeer peer).map (.appendEntries peer))
  | .appendEntries _ req nowSecs =>
    let (s, resp) := s.handleAppendEntries req nowSecs
    (s, some (.appendReply req.leaderId resp))
  | .appendResponse _ resp nowSecs => (s.handleAppendResponse resp.responderId resp nowSecs, none)
  | .propose _ command stampSecs nowSecs => ((s.propose command stampSecs nowSecs).1, none)
  | .acquireLease _ resource holder ttlMs stampSecs nowSecs leaseSecs =>
    ((s.acquireLease resource holder ttlMs stampSecs nowSecs leaseSecs).1, none)
  | .releaseLease _ resource holder stampSecs nowSecs =>
    ((s.releaseLease resource holder stampSecs nowSecs).1, none)

structure Cluster where
  nodes : String → RaftCoordinator
  sent : List RaftMessage

namespace Cluster

variable (members : Finset String)

def new : Cluster where
  nodes node := .new node members
  sent := []

/-- A reply goes to the node whose request it answers. -/
def step (c : Cluster) (e : RaftEvent) : Option Cluster :=
  if e.node ∈ members ∧ ∀ m ∈ e.handles, m ∈ c.sent then
    let (s, message) := (c.nodes e.node).act e
    some ⟨Function.update c.nodes e.node s, c.sent ++ message.toList⟩
  else none

abbrev Run : List (Cluster × RaftEvent) → Cluster → Prop :=
  Transition.Run (step members) (fun _ _ => True) (· = new members)

def states (h : List (Cluster × RaftEvent)) (c : Cluster) : List Cluster := c :: h.map Prod.fst

/-! ## The contract -/

def Leads (c : Cluster) (node : String) (term : ℕ) : Prop :=
  (c.nodes node).role = .leader ∧ (c.nodes node).currentTerm = term

def ElectionSafe (h : List (Cluster × RaftEvent)) (c : Cluster) : Prop :=
  ∀ c1 ∈ states h c, ∀ c2 ∈ states h c, ∀ a ∈ members, ∀ b ∈ members, ∀ term,
    c1.Leads a term → c2.Leads b term → a = b

def StateMachineSafe (h : List (Cluster × RaftEvent)) (c : Cluster) : Prop :=
  (∀ c1 ∈ states h c, ∀ c2 ∈ states h c, ∀ a ∈ members, ∀ b ∈ members,
    ∀ x ∈ (c1.nodes a).applied, ∀ y ∈ (c2.nodes b).applied, x.index = y.index → x.command = y.command) ∧
  ∀ a ∈ members,
    (∀ c1 ∈ states h c, (c1.nodes a).commitIndex ≤ (c1.nodes a).log.length) ∧
    (states h c).Pairwise fun later earlier =>
      (earlier.nodes a).commitIndex ≤ (later.nodes a).commitIndex

end Cluster

end Velcrux.Consensus
