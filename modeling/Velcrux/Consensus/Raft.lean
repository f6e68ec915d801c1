import Mathlib

/-!
# Raft nodes

`consensus/mod`: the coordinator of one node, with its handlers as functions on its state, and the
metadata that the committed commands are applied to. Hash maps are functions to `Option`; the
counters of terms and lease epochs, 64 bits wide in the source, are natural numbers.
-/

namespace Velcrux.Consensus

open Function

inductive RaftRole where
  | follower
  | candidate
  | leader
deriving DecidableEq

inductive RaftCommand where
  | registerNode (nodeId address role : String)
  | decommissionNode (nodeId : String)
  | acquireLease (resource holder : String) (ttlMs epoch : ℕ)
  | releaseLease (resource holder : String)
  | updateMetadata (key value : String) (version : ℕ)
  | fenceEpoch (nodeId : String) (minValidEpoch : ℕ)
  | noop
deriving DecidableEq

structure RaftLogEntry where
  index : ℕ
  term : ℕ
  command : RaftCommand
  timestampSecs : ℕ
deriving DecidableEq

structure ClusterLease where
  resource : String
  holder : String
  grantedAtSecs : ℕ
  expiresAtSecs : ℕ
  epoch : ℕ
deriving DecidableEq

def ClusterLease.isActive (l : ClusterLease) (nowSecs : ℕ) : Bool := nowSecs < l.expiresAtSecs

def leaseFrom (resource holder : String) (ttlMs epoch nowSecs : ℕ) : ClusterLease where
  resource := resource
  holder := holder
  grantedAtSecs := nowSecs
  expiresAtSecs := nowSecs + max (ttlMs / 1000) 1
  epoch := epoch

structure RequestVoteRequest where
  term : ℕ
  candidateId : String
  lastLogIndex : ℕ
  lastLogTerm : ℕ
deriving DecidableEq

structure RequestVoteResponse where
  term : ℕ
  voteGranted : Bool
  voterId : String
deriving DecidableEq

structure AppendEntriesRequest where
  term : ℕ
  leaderId : String
  prevLogIndex : ℕ
  prevLogTerm : ℕ
  entries : List RaftLogEntry
  leaderCommit : ℕ
deriving DecidableEq

structure AppendEntriesResponse where
  term : ℕ
  success : Bool
  matchIndex : ℕ
  responderId : String
deriving DecidableEq

structure ClusterMetadataStateMachine where
  nodes : String → Option (String × String)
  leases : String → Option ClusterLease
  metadata : String → Option (String × ℕ)
  fencedEpochs : String → Option ℕ

namespace ClusterMetadataStateMachine

def empty : ClusterMetadataStateMachine := ⟨fun _ => none, fun _ => none, fun _ => none, fun _ => none⟩

def fenced (sm : ClusterMetadataStateMachine) (holder : String) (epoch : ℕ) : Bool :=
  match sm.fencedEpochs holder with
  | some minEpoch => epoch < minEpoch
  | none => false

def apply (sm : ClusterMetadataStateMachine) (command : RaftCommand) (nowSecs : ℕ) :
    ClusterMetadataStateMachine :=
  match command with
  | .registerNode nodeId address role =>
    { sm with nodes := update sm.nodes nodeId (some (address, role)) }
  | .decommissionNode nodeId => { sm with nodes := update sm.nodes nodeId none }
  | .acquireLease resource holder ttlMs epoch =>
    if sm.fenced holder epoch then sm
    else
      { sm with
        leases := update sm.leases resource
          (some (leaseFrom resource holder ttlMs epoch nowSecs)) }
  | .releaseLease resource holder =>
    if (sm.leases resource).any fun existing => existing.holder = holder then
      { sm with leases := update sm.leases resource none }
    else sm
  | .updateMetadata key value version =>
    { sm with metadata := update sm.metadata key (some (value, version)) }
  | .fenceEpoch nodeId minValidEpoch =>
    { sm with fencedEpochs := update sm.fencedEpochs nodeId (some minValidEpoch) }
  | .noop => sm

end ClusterMetadataStateMachine

/-! ## The coordinator -/

structure PeerProgress where
  nextIndex : ℕ
  matchIndex : ℕ
deriving DecidableEq

structure Application where
  index : ℕ
  command : RaftCommand
  nowSecs : ℕ
deriving DecidableEq

structure RaftCoordinator where
  nodeId : String
  currentTerm : ℕ
  votedFor : Option String
  role : RaftRole
  leaderId : Option String
  log : List RaftLogEntry
  commitIndex : ℕ
  lastApplied : ℕ
  peers : Finset String
  progress : String → PeerProgress
  votesReceived : Finset String
  stateMachine : ClusterMetadataStateMachine
  leaseEpochCounter : ℕ
  applied : List Application

namespace RaftCoordinator

def new (nodeId : String) (peerIds : Finset String) : RaftCoordinator where
  nodeId := nodeId
  currentTerm := 0
  votedFor := none
  role := .follower
  leaderId := none
  log := []
  commitIndex := 0
  lastApplied := 0
  peers := peerIds.erase nodeId
  progress _ := ⟨1, 0⟩
  votesReceived := ∅
  stateMachine := .empty
  leaseEpochCounter := 1
  applied := []

variable (s : RaftCoordinator)

def lastLogTerm : ℕ := (s.log.getLast?.map RaftLogEntry.term).getD 0

def quorum : ℕ := (s.peers.card + 1) / 2 + 1

def advanceTerm (term : ℕ) : RaftCoordinator :=
  { s with currentTerm := term, role := .follower, votedFor := none }

def applyEntries (nowSecs : ℕ) : List RaftLogEntry → RaftCoordinator → RaftCoordinator
  | [], s => s
  | entry :: rest, s =>
    applyEntries nowSecs rest
      { s with
        stateMachine := s.stateMachine.apply entry.command nowSecs
        lastApplied := s.lastApplied + 1
        applied := s.applied ++ [⟨s.lastApplied + 1, entry.command, nowSecs⟩] }

def applyCommittedEntries (commitTarget nowSecs : ℕ) : RaftCoordinator :=
  applyEntries nowSecs ((s.log.take commitTarget).drop s.lastApplied) s

def commitTo (target nowSecs : ℕ) : RaftCoordinator :=
  applyCommittedEntries { s with commitIndex := target } target nowSecs

def handleRequestVote (req : RequestVoteRequest) : RaftCoordinator × RequestVoteResponse :=
  -- 1. a later term
  let s := if s.currentTerm < req.term then { s.advanceTerm req.term with leaderId := none } else s
  -- 2. a stale candidate
  if req.term < s.currentTerm then (s, ⟨s.currentTerm, false, s.nodeId⟩)
  else
    -- 3. whether the vote is free, and the log of the candidate good enough
    let candidateLogOk := s.lastLogTerm < req.lastLogTerm ∨
      (req.lastLogTerm = s.lastLogTerm ∧ s.log.length ≤ req.lastLogIndex)
    let canVote := s.votedFor = none ∨ s.votedFor = some req.candidateId
    if canVote ∧ candidateLogOk then
      ({ s with votedFor := some req.candidateId }, ⟨s.currentTerm, true, s.nodeId⟩)
    else (s, ⟨s.currentTerm, false, s.nodeId⟩)

def appendNew : List RaftLogEntry → List RaftLogEntry → List RaftLogEntry
  | log, [] => log
  | log, entry :: rest =>
    if entry.index ≤ log.length then
      if (log[entry.index - 1]?.map RaftLogEntry.term) = some entry.term then appendNew log rest
      else appendNew (log.take (entry.index - 1) ++ [entry]) rest
    else appendNew (log ++ [entry]) rest

def handleAppendEntries (req : AppendEntriesRequest) (nowSecs : ℕ) :
    RaftCoordinator × AppendEntriesResponse :=
  -- 1. a later term
  let s := if s.currentTerm < req.term then s.advanceTerm req.term else s
  -- 2. a stale leader
  if req.term < s.currentTerm then (s, ⟨s.currentTerm, false, s.log.length, s.nodeId⟩)
  else
    -- 3. the leader is recognised
    let s := { s with role := .follower, leaderId := some req.leaderId }
    -- 4. the entry before the new ones
    if 0 < req.prevLogIndex ∧ s.log.length < req.prevLogIndex then
      (s, ⟨s.currentTerm, false, s.log.length, s.nodeId⟩)
    else if 0 < req.prevLogIndex ∧
        (s.log[req.prevLogIndex - 1]?.map RaftLogEntry.term) ≠ some req.prevLogTerm then
      let s := { s with log := s.log.take (req.prevLogIndex - 1) }
      (s, ⟨s.currentTerm, false, s.log.length, s.nodeId⟩)
    else
      -- 5. the new entries
      let s := { s with log := appendNew s.log req.entries }
      -- 6. the commit index
      let s :=
        if s.commitIndex < req.leaderCommit then s.commitTo (min req.leaderCommit s.log.length) nowSecs
        else s
      (s, ⟨s.currentTerm, true, s.log.length, s.nodeId⟩)

def startElection : RaftCoordinator × RequestVoteRequest :=
  ({ s with
      currentTerm := s.currentTerm + 1
      role := .candidate
      votedFor := some s.nodeId
      leaderId := none
      votesReceived := {s.nodeId} },
    ⟨s.currentTerm + 1, s.nodeId, s.log.length, s.lastLogTerm⟩)

def propose (command : RaftCommand) (stampSecs nowSecs : ℕ) : RaftCoordinator × Except String ℕ :=
  if s.role ≠ .leader then
    let leader := s.leaderId.getD "unknown"
    (s, .error s!"cannot propose command on follower: redirect to leader '{leader}'")
  else
    let index := s.log.length + 1
    let s := { s with log := s.log ++ [⟨index, s.currentTerm, command, stampSecs⟩] }
    -- a cluster of one node commits at once
    (if s.peers = ∅ then s.commitTo index nowSecs else s, .ok index)

def recordVote (voterId : String) (granted : Bool) (term stampSecs nowSecs : ℕ) :
    RaftCoordinator × Bool :=
  if s.currentTerm < term then (s.advanceTerm term, false)
  else if s.role ≠ .candidate ∨ term ≠ s.currentTerm ∨ granted = false then (s, false)
  else
    let s := { s with votesReceived := insert voterId s.votesReceived }
    if s.quorum ≤ s.votesReceived.card then
      let s := { s with
        role := .leader
        leaderId := some s.nodeId
        progress := fun _ => ⟨s.log.length + 1, 0⟩ }
      ((s.propose .noop stampSecs nowSecs).1, true)
    else (s, false)

def createAppendEntriesForPeer (peerId : String) : Option AppendEntriesRequest :=
  if s.role ≠ .leader ∨ peerId ∉ s.peers then none
  else
    let next := (s.progress peerId).nextIndex
    some
      { term := s.currentTerm
        leaderId := s.nodeId
        prevLogIndex := next - 1
        prevLogTerm :=
          if 0 < next - 1 then (s.log[next - 1 - 1]?.map RaftLogEntry.term).getD 0 else 0
        entries := if next ≤ s.log.length then s.log.drop (next - 1) else []
        leaderCommit := s.commitIndex }

def replyProgress (p : PeerProgress) (resp : AppendEntriesResponse) : PeerProgress :=
  if resp.success then ⟨resp.matchIndex + 1, resp.matchIndex⟩
  else ⟨max (p.nextIndex - 1) 1, p.matchIndex⟩

def canCommit (n : ℕ) : Bool :=
  (s.log[n - 1]?.map RaftLogEntry.term) = some s.currentTerm ∧
    s.quorum ≤ (s.peers.filter fun p => n ≤ (s.progress p).matchIndex).card + 1

def commitCandidate : ℕ → Option ℕ
  | 0 => none
  | n + 1 =>
    if n + 1 ≤ s.commitIndex then none
    else if s.canCommit (n + 1) then some (n + 1)
    else commitCandidate n

def handleAppendResponse (peerId : String) (resp : AppendEntriesResponse) (nowSecs : ℕ) :
    RaftCoordinator :=
  if s.currentTerm < resp.term then s.advanceTerm resp.term
  else if s.role ≠ .leader ∨ resp.term ≠ s.currentTerm then s
  else
    let s :=
      if peerId ∈ s.peers then
        { s with progress := update s.progress peerId (replyProgress (s.progress peerId) resp) }
      else s
    match s.commitCandidate s.log.length with
    | some n => s.commitTo n nowSecs
    | none => s

def acquireLease (resource holder : String) (ttlMs stampSecs nowSecs leaseSecs : ℕ) :
    RaftCoordinator × Except String ClusterLease :=
  let epoch := s.leaseEpochCounter
  let s := { s with leaseEpochCounter := epoch + 1 }
  match s.propose (.acquireLease resource holder ttlMs epoch) stampSecs nowSecs with
  | (s, .error e) => (s, .error e)
  | (s, .ok _) => (s, .ok (leaseFrom resource holder ttlMs epoch leaseSecs))

def releaseLease (resource holder : String) (stampSecs nowSecs : ℕ) :
    RaftCoordinator × Except String Bool :=
  match s.propose (.releaseLease resource holder) stampSecs nowSecs with
  | (s, .error e) => (s, .error e)
  | (s, .ok _) => (s, .ok true)

end RaftCoordinator

end Velcrux.Consensus
