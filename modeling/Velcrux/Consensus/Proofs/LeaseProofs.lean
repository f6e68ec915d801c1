import Velcrux.Consensus.Leases
import Velcrux.Consensus.Proofs.ClusterProofs

/-!
# When leases are exclusive and fenced

A leader grants every lease that it is asked for, and its epoch is the number of requests that the node has
had. So the answers are as far apart as the requests are.
-/

namespace Velcrux.Consensus.Cluster

open Option RaftCoordinator

variable {members : Finset String} {c : Cluster}

variable (s : RaftCoordinator)

theorem propose_snd (command : RaftCommand) (stampSecs nowSecs : ℕ) :
    (s.propose command stampSecs nowSecs).2.toOption =
      if s.role = .leader then some (s.log.length + 1) else none := by
  rw [propose]
  by_cases hrole : s.role = .leader
  · rw [if_neg (not_not_intro hrole), if_pos hrole]
    rfl
  · rw [if_pos hrole, if_neg hrole]
    rfl

theorem returned_eq (x : Cluster × RaftEvent) :
    returned x = (leaseAsked x).map fun r =>
      leaseFrom r.resource r.holder r.ttlMs (x.1.nodes r.node).leaseEpochCounter r.leaseSecs := by
  obtain ⟨c, e⟩ := x
  cases e with
  | acquireLease node resource holder ttlMs stampSecs nowSecs leaseSecs =>
    rw [returned, leaseAsked, acquireLease]
    have hanswer := propose_snd
      { c.nodes node with leaseEpochCounter := (c.nodes node).leaseEpochCounter + 1 }
      (.acquireLease resource holder ttlMs (c.nodes node).leaseEpochCounter) stampSecs nowSecs
    split <;> rename_i heq <;> rw [heq] at hanswer
    · split
      · rename_i hrole
        rw [if_pos hrole] at hanswer
        cases hanswer
      · rfl
    · split
      · rfl
      · rename_i hrole
        rw [if_neg hrole] at hanswer
        cases hanswer
  | _ => rfl

theorem released_iff (resource holder : String) (x : Cluster × RaftEvent) :
    Released resource holder x ↔ ReleaseAsked resource holder x := by
  obtain ⟨c, e⟩ := x
  cases e with
  | releaseLease node resource' holder' stampSecs nowSecs =>
    rw [Released, releaseLease]
    have hanswer := propose_snd (c.nodes node) (.releaseLease resource' holder') stampSecs nowSecs
    refine and_congr_right fun _ => and_congr_right fun _ => ?_
    split <;> rename_i heq <;> rw [heq] at hanswer
    · by_cases hrole : (c.nodes node).role = .leader
      · rw [if_pos hrole] at hanswer
        cases hanswer
      · exact ⟨fun h => (by cases h), fun h => absurd h hrole⟩
    · by_cases hrole : (c.nodes node).role = .leader
      · exact ⟨fun _ => hrole, fun _ => rfl⟩
      · rw [if_neg hrole] at hanswer
        cases hanswer
  | _ => exact Iff.rfl

/-! ## The counters -/

theorem counter_applyEntries (nowSecs : ℕ) (entries : List RaftLogEntry) (s : RaftCoordinator) :
    (applyEntries nowSecs entries s).leaseEpochCounter = s.leaseEpochCounter := by
  induction entries generalizing s with
  | nil => rfl
  | cons entry rest ih =>
    rw [applyEntries, ih]

theorem counter_commitTo (target nowSecs : ℕ) :
    (s.commitTo target nowSecs).leaseEpochCounter = s.leaseEpochCounter :=
  counter_applyEntries _ _ _

theorem counter_propose (command : RaftCommand) (stampSecs nowSecs : ℕ) :
    (s.propose command stampSecs nowSecs).1.leaseEpochCounter = s.leaseEpochCounter := by
  rw [propose]
  split
  · rfl
  · dsimp only
    split
    · rw [counter_commitTo]
    · rfl

theorem counter_handleRequestVote (req : RequestVoteRequest) :
    (s.handleRequestVote req).1.leaseEpochCounter = s.leaseEpochCounter := by
  rw [handleRequestVote]
  generalize hs1 : (if s.currentTerm < req.term then { s.advanceTerm req.term with leaderId := none }
    else s) = s1
  have hcounter : s1.leaseEpochCounter = s.leaseEpochCounter := by
    rw [← hs1]
    split <;> rfl
  dsimp only
  split
  · exact hcounter
  · split <;> exact hcounter

theorem counter_handleAppendEntries (req : AppendEntriesRequest) (nowSecs : ℕ) :
    (s.handleAppendEntries req nowSecs).1.leaseEpochCounter = s.leaseEpochCounter := by
  rw [handleAppendEntries]
  generalize hs1 : (if s.currentTerm < req.term then s.advanceTerm req.term else s) = s1
  have hcounter : s1.leaseEpochCounter = s.leaseEpochCounter := by
    rw [← hs1]
    split <;> rfl
  dsimp only
  split
  · exact hcounter
  · split
    · exact hcounter
    · split
      · exact hcounter
      · split
        · rw [counter_commitTo]
          exact hcounter
        · exact hcounter

theorem counter_recordVote (voterId : String) (granted : Bool) (term stampSecs nowSecs : ℕ) :
    (s.recordVote voterId granted term stampSecs nowSecs).1.leaseEpochCounter = s.leaseEpochCounter := by
  rw [recordVote]
  split
  · rfl
  · split
    · rfl
    · dsimp only
      split
      · rw [counter_propose]
      · rfl

theorem counter_handleAppendResponse (peerId : String)
    (resp : AppendEntriesResponse) (nowSecs : ℕ) :
    (s.handleAppendResponse peerId resp nowSecs).leaseEpochCounter = s.leaseEpochCounter := by
  rw [handleAppendResponse]
  split
  · rfl
  · split
    · rfl
    · generalize hs1 : (if peerId ∈ s.peers then
        { s with
          progress := Function.update s.progress peerId
            (replyProgress (s.progress peerId) resp) } else s) = s1
      have hcounter : s1.leaseEpochCounter = s.leaseEpochCounter := by
        rw [← hs1]
        split <;> rfl
      dsimp only
      split
      · rw [counter_commitTo]
        exact hcounter
      · exact hcounter

theorem counter_act (e : RaftEvent) :
    (s.act e).1.leaseEpochCounter = s.leaseEpochCounter + if isAcquire e then 1 else 0 := by
  cases e with
  | startElection node => rfl
  | requestVote node req => exact counter_handleRequestVote s req
  | recordVote node resp stampSecs nowSecs => exact counter_recordVote s _ _ _ _ _
  | createAppendEntries node peer => rfl
  | appendEntries node req nowSecs => exact counter_handleAppendEntries s req nowSecs
  | appendResponse node resp nowSecs => exact counter_handleAppendResponse s _ resp nowSecs
  | propose node command stampSecs nowSecs => exact counter_propose s command stampSecs nowSecs
  | acquireLease node resource holder ttlMs stampSecs nowSecs leaseSecs =>
    have hcounter := counter_propose { s with leaseEpochCounter := s.leaseEpochCounter + 1 }
      (.acquireLease resource holder ttlMs s.leaseEpochCounter) stampSecs nowSecs
    rw [act, acquireLease]
    split <;> rename_i heq <;> rw [heq] at hcounter <;> exact hcounter
  | releaseLease node resource holder stampSecs nowSecs =>
    have hcounter := counter_propose s (.releaseLease resource holder) stampSecs nowSecs
    rw [act, releaseLease]
    split <;> rename_i heq <;> rw [heq] at hcounter <;> exact hcounter

theorem counter_of_run {h : List (Cluster × RaftEvent)} (hrun : Run members h c) (node : String) :
    (c.nodes node).leaseEpochCounter = acquireCalls node h + 1 := by
  refine Transition.Run.invariant
    (I := fun h c => (c.nodes node).leaseEpochCounter = acquireCalls node h + 1) ?_ ?_ hrun
  · rintro c rfl
    rfl
  · rintro h c e c' - ih - hstep
    rw [step_nodes hstep, acquireCalls, List.countP_cons]
    by_cases hnode : node = e.node
    · subst hnode
      rw [Function.update_self, counter_act, ih, decide_eq_true rfl, Bool.and_true]
      exact Nat.add_right_comm _ _ _
    · have hother : decide (e.node = node) = false := decide_eq_false fun h => hnode h.symm
      rw [Function.update_of_ne hnode, ih, hother, Bool.and_false]
      rfl

theorem run_before {h after before : List (Cluster × RaftEvent)} {x : Cluster × RaftEvent}
    (hrun : Run members h c) (hsplit : h = after ++ x :: before) : Run members before x.1 := by
  induction after generalizing h c with
  | nil =>
    subst hsplit
    cases hrun with
    | step hrun _ _ => exact hrun
  | cons y after ih =>
    subst hsplit
    cases hrun with
    | step hrun _ _ => exact ih hrun rfl

/-! ## The answers of a run -/

/-- The leases of a run are exclusive and fenced exactly if the requests are apart. -/
theorem leasesSafe_iff_requestsApart (members : Finset String) (h : List (Cluster × RaftEvent))
    (c : Cluster) (hrun : Run members h c) : LeasesSafe h ↔ RequestsApart h := by
  refine forall_congr' fun x1 => forall_congr' fun x2 => forall_congr' fun before =>
    forall_congr' fun between => forall_congr' fun hearlier => ?_
  obtain ⟨after, hsplit⟩ := hearlier
  -- the epochs, by the number of calls
  have hrun2 := run_before hrun hsplit
  have hrun1 := run_before hrun2 rfl
  have hcount1 := counter_of_run hrun1
  have hcount2 := counter_of_run hrun2
  rw [returned_eq, returned_eq]
  simp only [mem_def, map_eq_some_iff, forall_exists_index, and_imp,
    forall_apply_eq_imp_iff₂]
  refine forall₄_congr fun r1 hr1 r2 hr2 => forall_congr' fun hresource => and_congr ?_ ?_
  · refine forall_congr' fun _ => or_congr ?_ ?_
    · show decide (r2.leaseSecs < r1.leaseSecs + max (r1.ttlMs / 1000) 1) = false ↔ _
      rw [decide_eq_false_iff_not, Nat.not_lt]
    · exact exists_congr fun y => and_congr_right fun _ => released_iff _ _ _
  · show (x1.1.nodes r1.node).leaseEpochCounter < (x2.1.nodes r2.node).leaseEpochCounter ↔ _
    rw [hcount1, hcount2, Nat.add_lt_add_iff_right]

def succession : List RaftEvent :=
  election ++
  [.acquireLease "a" "r" "x" 5000 0 0 0, .createAppendEntries "a" "b",
    .appendEntries "b"
      ⟨1, "a", 0, 0, [⟨1, 1, .noop, 0⟩, ⟨2, 1, .acquireLease "r" "x" 5000 1, 0⟩], 0⟩ 0,
    .startElection "b", .requestVote "a" ⟨2, "b", 2, 1⟩, .recordVote "b" ⟨2, true, "a"⟩ 0 0,
    .acquireLease "b" "r" "y" 5000 0 0 1]

theorem leasesSafe_iff_succession : ∃ h c, Run {"a", "b"} h c ∧ h.length = 10 ∧
    (LeasesSafe h ↔ RequestsApart h) := by
  have hex : (played {"a", "b"} succession).any (fun r => decide (r.1.length = 10)) = true := by
    decide
  obtain ⟨⟨h, c⟩, hplayed, hlen⟩ := (any_eq_true _ _).mp hex
  have hrun := run_of_played hplayed
  exact ⟨h, c, hrun, of_decide_eq_true hlen, leasesSafe_iff_requestsApart _ h c hrun⟩

/-- The second lease is granted while the first one lasts, and has the same epoch. -/
theorem not_leasesSafe_succession : ∃ h c, Run {"a", "b"} h c ∧ ¬ LeasesSafe h := by
  have hex : (played {"a", "b"} succession).any (fun r => decide
      (r.1.head?.bind returned = some ⟨"r", "y", 1, 6, 1⟩ ∧
        r.1[6]?.bind returned = some ⟨"r", "x", 0, 5, 1⟩)) = true := by decide
  obtain ⟨⟨h, c⟩, hplayed, hdone⟩ := (any_eq_true _ _).mp hex
  obtain ⟨hsecond, hfirst⟩ := of_decide_eq_true hdone
  obtain ⟨x2, hx2, hlease2⟩ := bind_eq_some_iff.mp hsecond
  obtain ⟨x1, hx1, hlease1⟩ := bind_eq_some_iff.mp hfirst
  refine ⟨h, c, run_of_played hplayed, fun hsafe => ?_⟩
  cases h with
  | nil => cases hx2
  | cons x h =>
    cases hx2
    obtain ⟨hlt, rfl⟩ := List.getElem?_eq_some_iff.mp (show h[5]? = some x1 from hx1)
    have hsplit : h = h.take 5 ++ h[5] :: h.drop 6 := by
      rw [← List.drop_eq_getElem_cons hlt, List.take_append_drop]
    have hpair : Earlier (x2 :: h) h[5] x2 (h.drop 6) (h.take 5) :=
      ⟨[], congrArg (x2 :: ·) hsplit⟩
    exact absurd (hsafe _ _ _ _ hpair _ hlease1 _ hlease2 rfl).2 (Nat.lt_irrefl 1)

end Velcrux.Consensus.Cluster
