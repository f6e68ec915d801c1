import Velcrux.Consensus.Proofs.ClusterProofs

/-!
# The logs of a cluster

What the record of the protocol says about the logs and messages of a run.
-/

namespace Velcrux.Consensus.Cluster

open List RaftLogEntry Raft
open TermLog (termAt)

variable {members : Finset String}

def Always (members : Finset String) (P : Cluster → Prop) : Prop := ∀ h c, Run members h c → P c

theorem always_of_sim {P : Cluster → Prop} (hP : ∀ c g, Sim members c g → P c) : Always members P := by
  intro h c hrun
  obtain ⟨g, hrec⟩ := recorded_of_run hrun
  exact hP c g hrec.sim

def committed (s : RaftCoordinator) : List RaftLogEntry := s.log.take s.commitIndex

theorem committed_cases {g : Record String RaftLogEntry} {i : String} {s : RaftCoordinator}
    (h : Good members g i s) : committed s = [] ∨ ∃ u m, u ≤ s.currentTerm ∧
      Chosen term members g u m ∧ committed s <+: (g.root u).take m := by
  rcases h.node.commit.2.take_eq with hzero | ⟨u, m, hu, hchosen, hm, heq⟩
  · exact .inl (take_eq_nil_iff.mpr (.inl hzero))
  · exact .inr ⟨u, m, hu, hchosen,
      (show committed s = _ from heq) ▸ take_prefix_take_left hm⟩

variable (members)

/-- Logs that agree on a term agree up to there. -/
theorem logs_match : Always members fun c => ∀ a ∈ members, ∀ b ∈ members, ∀ k t,
    termAt term (c.nodes a).log k = some t → termAt term (c.nodes b).log k = some t →
    (c.nodes a).log.take (k + 1) = (c.nodes b).log.take (k + 1) :=
  always_of_sim fun _ _ hsim a ha b hb _ _ =>
    (hsim.good a ha).node.log.rooted.matching (hsim.good b hb).node.log.rooted

/-- A leader has all that members of its term or of an earlier one have committed. -/
theorem leader_complete : Always members fun c => ∀ a ∈ members, ∀ b ∈ members, ∀ t, c.Leads a t →
    (c.nodes b).currentTerm ≤ t → committed (c.nodes b) <+: (c.nodes a).log := by
  refine always_of_sim fun c g hsim a ha b hb t hlead hle => ?_
  obtain ⟨hrole, rfl⟩ := hlead
  obtain ⟨⟨base, helected⟩, hlog, -⟩ := (hsim.good a ha).root_of_leader hrole
  rcases committed_cases (hsim.good b hb) with hnil | ⟨u, m, hu, hchosen, hpre⟩
  · exact hnil ▸ nil_prefix
  · rw [hlog]
    exact hpre.trans ((hsim.good a ha).record.complete_root hchosen (hu.trans hle) helected)

/-- What a member has committed is in the logs of a majority. -/
theorem committed_majority : Always members fun c => ∀ a ∈ members, ∃ q, Majority members q ∧
    ∀ b ∈ q, committed (c.nodes a) <+: (c.nodes b).log := by
  refine always_of_sim fun c g hsim a ha => ?_
  rcases committed_cases (hsim.good a ha) with hnil | ⟨u, m, -, hchosen, hpre⟩
  · have := Finset.card_pos.mpr ⟨a, ha⟩
    exact ⟨members, ⟨subset_rfl, by omega⟩, fun b _ => hnil ▸ nil_prefix⟩
  · obtain ⟨-, -, q, hq, hacked⟩ := id hchosen
    refine ⟨q, hq, fun b hb => hpre.trans ?_⟩
    have hgood := hsim.good b (hq.1 hb)
    -- every leader since then has it, so none has taken it back
    rcases hgood.node.kept u m (hacked b hb) with hkept | ⟨t', w, base, hlt, -, helected, hnot⟩
    · exact hkept
    · exact absurd (hgood.record.complete hchosen hlt helected) hnot

/-- What a leader takes for replicated on a peer of its term is there. -/
theorem progress_true : Always members fun c => ∀ a ∈ members, ∀ b ∈ members,
    c.Leads a (c.nodes b).currentTerm →
    (c.nodes a).log.take ((c.nodes a).progress b).matchIndex <+: (c.nodes b).log := by
  refine always_of_sim fun c g hsim a ha b hb hlead => ?_
  obtain ⟨hrole, hterm⟩ := hlead
  obtain ⟨-, hlog, -⟩ := (hsim.good a ha).root_of_leader hrole
  have hacked := ((hsim.good a ha).own.progress hrole b).2.2
  rw [hlog]
  rw [hterm] at hacked ⊢
  exact ((hsim.good b hb).node.kept _ _ hacked).now

/-- Nobody votes twice in a term. -/
theorem votes_once : Always members fun c => ∀ a b x y, .voteReply a x ∈ c.sent →
    .voteReply b y ∈ c.sent → x.voteGranted = true → y.voteGranted = true →
    x.voterId = y.voterId → x.term = y.term → a = b := by
  refine always_of_sim fun c g hsim a b x y hx hy hgx hgy hvoter hterm => ?_
  obtain ⟨log, hcast⟩ := hsim.sent _ hx hgx
  obtain ⟨log', hcast'⟩ := hsim.sent _ hy hgy
  rw [hvoter, hterm, hcast'] at hcast
  cases hcast
  rfl

/-- What was applied is still the beginning of what is committed. -/
theorem applied_kept : Always members fun c => ∀ a ∈ members, (c.nodes a).applied.map (·.command) =
    ((committed (c.nodes a)).take (c.nodes a).lastApplied).map command := by
  refine always_of_sim fun c g hsim a ha => ?_
  have htracks := (hsim.good a ha).own.tracks
  have htrace := congrArg (map Prod.snd) htracks.trace
  rw [map_map, map_map] at htrace
  rw [committed, take_take, min_eq_left htracks.le]
  exact htrace

end Velcrux.Consensus.Cluster
