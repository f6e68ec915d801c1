import Velcrux.Consensus.Proofs.RefinementProofs

/-!
# Elections and agreement in a cluster

A cluster is in agreement with a record of the protocol, and stays so whichever handler is called next.
-/

namespace Velcrux.Consensus

open List Option Function RaftCoordinator

open Raft (Record)
open TermLog (getElem?_of_below)

variable {members : Finset String} {g g' : Record String RaftLogEntry} {i : String}
  {s : RaftCoordinator} {c c' : Cluster} {e : RaftEvent}

/-- A call on a node: moves of the protocol, and a message that the record bears out. -/
theorem Good.act (hgood : Good members g i s) (hnode : e.node = i)
    (hhandles : ∀ m ∈ e.handles, Justified members g m) :
    ∃ g', Reaches members i s g (s.act e).1 g' ∧ ∀ m ∈ (s.act e).2, Justified members g' m := by
  cases e with
  | startElection node =>
    obtain ⟨g', hreach, hmessage⟩ := hgood.startElection
    refine ⟨g', hreach, fun m hm => ?_⟩
    cases hm
    exact hmessage
  | requestVote node req =>
    obtain ⟨g', hreach, hmessage⟩ := hgood.handleRequestVote (hhandles _ rfl)
    refine ⟨g', hreach, fun m hm => ?_⟩
    cases hm
    exact hmessage
  | recordVote node resp stampSecs nowSecs =>
    obtain rfl : node = i := hnode
    obtain ⟨g', hreach⟩ := hgood.recordVote (hhandles _ rfl) stampSecs nowSecs
    exact ⟨g', hreach, nofun⟩
  | createAppendEntries node peer =>
    refine ⟨g, hgood.stays, fun m hm => ?_⟩
    obtain ⟨req, hreq, rfl⟩ := map_eq_some_iff.mp hm
    exact hgood.createAppendEntries hreq
  | appendEntries node req nowSecs =>
    obtain ⟨g', hreach, hmessage⟩ := hgood.handleAppendEntries (hhandles _ rfl) nowSecs
    refine ⟨g', hreach, fun m hm => ?_⟩
    cases hm
    exact hmessage
  | appendResponse node resp nowSecs =>
    obtain rfl : node = i := hnode
    exact ⟨g, hgood.handleAppendResponse (hhandles _ rfl) nowSecs, nofun⟩
  | propose node command stampSecs nowSecs =>
    obtain ⟨g', hreach⟩ := hgood.propose command stampSecs nowSecs
    exact ⟨g', hreach, nofun⟩
  | acquireLease node resource holder ttlMs stampSecs nowSecs leaseSecs =>
    have hcounter : Reaches members i s g { s with leaseEpochCounter := s.leaseEpochCounter + 1 } g :=
      hgood.unseen rfl { hgood.own with tracks := { hgood.own.tracks with } } prefix_rfl
    obtain ⟨g', hreach⟩ := hcounter.good.propose
      (.acquireLease resource holder ttlMs s.leaseEpochCounter) stampSecs nowSecs
    refine ⟨g', hcounter.trans ?_, nofun⟩
    rw [act, acquireLease]
    split <;> rename_i heq <;> rw [heq] at hreach <;> exact hreach
  | releaseLease node resource holder stampSecs nowSecs =>
    obtain ⟨g', hreach⟩ := hgood.propose (.releaseLease resource holder) stampSecs nowSecs
    refine ⟨g', ?_, nofun⟩
    rw [act, releaseLease]
    split <;> rename_i heq <;> rw [heq] at hreach <;> exact hreach

namespace Cluster

structure Sim (members : Finset String) (c : Cluster) (g : Record String RaftLogEntry) : Prop where
  good : ∀ i ∈ members, Good members g i (c.nodes i)
  sent : ∀ m ∈ c.sent, Justified members g m

structure Later (members : Finset String) (c c' : Cluster) : Prop where
  commit : ∀ i ∈ members, (c.nodes i).commitIndex ≤ (c'.nodes i).commitIndex
  applied : ∀ i ∈ members, (c.nodes i).applied <+: (c'.nodes i).applied

theorem Sim.new (members : Finset String) : Sim members (new members) .empty := by
  refine ⟨fun i hi => ?_, nofun⟩
  have hinv : Raft.Inv RaftLogEntry.term members
      ⟨fun i => (RaftCoordinator.new i members).view, .empty⟩ := .start fun _ => rfl
  refine ⟨hi, hinv.record, hinv.node i, fun t k e hk => ?_, rfl, rfl, nofun, le_rfl, rfl, rfl⟩
  cases hk

theorem step_nodes (hstep : step members c e = some c') :
    c'.nodes = Function.update c.nodes e.node ((c.nodes e.node).act e).1 := by
  rw [Cluster.step] at hstep
  split at hstep
  · cases hstep
    rfl
  · cases hstep

theorem Sim.step (hsim : Sim members c g) (hstep : step members c e = some c') :
    ∃ g', Sim members c' g' ∧ g.Le g' ∧ Later members c c' := by
  rw [Cluster.step] at hstep
  split at hstep
  · rename_i hok
    obtain ⟨hmember, hhandles⟩ := hok
    obtain ⟨g', hreach, hmessage⟩ := (hsim.good e.node hmember).act rfl
      fun m hm => hsim.sent m (hhandles m hm)
    have hgood := hsim.good e.node hmember
    have hsound := hreach.moves.sound hgood.record hgood.node hmember
    cases hstep
    refine ⟨g', ⟨fun j hj => ?_, fun m hm => ?_⟩, hsound.grows, ⟨fun j hj => ?_, fun j hj => ?_⟩⟩
    · by_cases h : j = e.node
      · subst h
        show Good members g' e.node (Function.update c.nodes e.node _ e.node)
        rw [update_self]
        exact hreach.good
      · show Good members g' j (Function.update c.nodes e.node _ j)
        rw [update_of_ne h]
        have hother := hsim.good j hj
        exact ⟨hj, hreach.good.record, hsound.others j h _ hother.node, hreach.good.roots,
          hother.own.mono hsound.grows⟩
    · rcases mem_append.mp hm with hm | hm
      · exact (hsim.sent m hm).mono hsound.grows
      · exact hmessage m (mem_toList.mp hm)
    · show _ ≤ (Function.update c.nodes e.node _ j).commitIndex
      by_cases h : j = e.node
      · subst h
        rw [update_self]
        exact hsound.commit
      · rw [update_of_ne h]
    · show _ <+: (Function.update c.nodes e.node _ j).applied
      by_cases h : j = e.node
      · subst h
        rw [update_self]
        exact hreach.applied
      · rw [update_of_ne h]
  · cases hstep

/-! ## Runs -/

structure Recorded (members : Finset String) (h : List (Cluster × RaftEvent)) (c : Cluster)
    (g : Record String RaftLogEntry) : Prop where
  sim : Sim members c g
  leaders : ∀ c1 ∈ states h c, ∀ a ∈ members, ∀ term, c1.Leads a term →
    ∃ base, g.elected term = some (a, base)
  later : ∀ c1 ∈ states h c, Later members c1 c
  bounded : ∀ c1 ∈ states h c, ∀ a ∈ members, (c1.nodes a).commitIndex ≤ (c1.nodes a).log.length
  ordered : ∀ a ∈ members, (states h c).Pairwise fun later earlier =>
    (earlier.nodes a).commitIndex ≤ (later.nodes a).commitIndex

theorem Later.refl (members : Finset String) (c : Cluster) : Later members c c :=
  ⟨fun _ _ => le_rfl, fun _ _ => prefix_rfl⟩

theorem Later.trans {c1 c2 c3 : Cluster} (h : Later members c1 c2) (h' : Later members c2 c3) :
    Later members c1 c3 :=
  ⟨fun i hi => (h.commit i hi).trans (h'.commit i hi),
    fun i hi => (h.applied i hi).trans (h'.applied i hi)⟩

theorem Sim.leader (hsim : Sim members c g) {a : String} (ha : a ∈ members) {term : ℕ}
    (h : c.Leads a term) : ∃ base, g.elected term = some (a, base) :=
  h.2 ▸ ((hsim.good a ha).root_of_leader h.1).1

variable {h : List (Cluster × RaftEvent)}

theorem recorded_of_run (hrun : Run members h c) : ∃ g, Recorded members h c g := by
  refine Transition.Run.invariant (I := fun h c => ∃ g, Recorded members h c g) ?_ ?_ hrun
  · rintro c rfl
    refine ⟨.empty, .new members, ?_, ?_, ?_, fun a _ => pairwise_singleton _ _⟩
    · rintro c1 hc1 a ha term hleads
      rw [mem_singleton.mp hc1] at hleads
      exact (Sim.new members).leader ha hleads
    · rintro c1 hc1
      rw [mem_singleton.mp hc1]
      exact .refl members _
    · rintro c1 hc1 a ha
      rw [mem_singleton.mp hc1]
      exact Nat.zero_le _
  · rintro h c e c' - ⟨g, hrec⟩ - hstep
    obtain ⟨g', hsim, hle, hlater⟩ := hrec.sim.step hstep
    -- the states of the longer run are the new one and those of the shorter run
    refine ⟨g', hsim, ?_, ?_, ?_, fun a ha => ?_⟩
    · rintro c1 hc1 a ha term hleads
      rcases mem_cons.mp hc1 with rfl | hc1
      · exact hsim.leader ha hleads
      · obtain ⟨base, hbase⟩ := hrec.leaders c1 hc1 a ha term hleads
        exact ⟨base, hle.elected _ _ hbase⟩
    · rintro c1 hc1
      rcases mem_cons.mp hc1 with rfl | hc1
      · exact .refl members _
      · exact (hrec.later c1 hc1).trans hlater
    · rintro c1 hc1 a ha
      rcases mem_cons.mp hc1 with rfl | hc1
      · exact (hsim.good a ha).node.commit.1
      · exact hrec.bounded c1 hc1 a ha
    · refine pairwise_cons.mpr ⟨fun c1 hc1 => ?_, hrec.ordered a ha⟩
      exact ((hrec.later c1 hc1).commit a ha).trans (hlater.commit a ha)

/-- In every run no term has two leaders, whatever happens to the messages. -/
theorem electionSafe_of_run (members : Finset String) (h : List (Cluster × RaftEvent)) (c : Cluster)
    (hrun : Run members h c) : ElectionSafe members h c := by
  obtain ⟨g, hrec⟩ := recorded_of_run hrun
  intro c1 hc1 c2 hc2 a ha b hb term hleads1 hleads2
  obtain ⟨base1, helected1⟩ := hrec.leaders c1 hc1 a ha term hleads1
  obtain ⟨base2, helected2⟩ := hrec.leaders c2 hc2 b hb term hleads2
  rw [helected1] at helected2
  exact congrArg Prod.fst (some.inj helected2)

def played (members : Finset String) (events : List RaftEvent) :
    Option (List (Cluster × RaftEvent) × Cluster) :=
  Transition.exec (step members) (fun _ _ => true) [] (new members) events

theorem run_of_played {events : List RaftEvent}
    (hplayed : played members events = some (h, c)) : Run members h c := by
  have hstart : Transition.Run (step members) (fun _ _ => true = true) (· = new members) []
      (new members) := .start rfl
  exact (Transition.run_exec hstart hplayed).imp fun _ _ _ _ _ => trivial

def election : List RaftEvent :=
  [.startElection "a", .requestVote "b" ⟨1, "a", 0, 0⟩, .recordVote "a" ⟨1, true, "b"⟩ 0 0]

theorem electionSafe_election : ∃ h c, Run {"a", "b"} h c ∧ c.Leads "a" 1 ∧
    ElectionSafe {"a", "b"} h c := by
  have hex : (played {"a", "b"} election).any (fun r => decide
      ((r.2.nodes "a").role = .leader ∧ (r.2.nodes "a").currentTerm = 1)) = true := by decide
  obtain ⟨⟨h, c⟩, hplayed, hleads⟩ := (any_eq_true _ _).mp hex
  obtain ⟨hrole, hterm⟩ := of_decide_eq_true hleads
  have hrun := run_of_played hplayed
  exact ⟨h, c, hrun, ⟨hrole, hterm⟩, electionSafe_of_run _ h c hrun⟩

/-! ## Agreement -/

theorem Good.applied_mem (hgood : Good members g i s) {x : Application} (hx : x ∈ s.applied) :
    ∃ k entry, (s.log.take s.commitIndex)[k]? = some entry ∧ x.index = k + 1 ∧
      x.command = entry.command := by
  have hpair : (x.index, x.command) ∈ (s.log.take s.lastApplied).map fun e => (e.index, e.command) := by
    rw [← hgood.own.tracks.trace]
    exact mem_map_of_mem hx
  obtain ⟨entry, hentry, heq⟩ := mem_map.mp hpair
  obtain ⟨hindex, hcommand⟩ := Prod.mk.inj heq
  obtain ⟨k, hk⟩ := mem_iff_getElem?.mp hentry
  have hpre : s.log.take s.lastApplied <+: s.log.take s.commitIndex :=
    take_prefix_take_left hgood.own.tracks.le
  refine ⟨k, entry, getElem?_of_below hpre hk, ?_, hcommand.symm⟩
  rw [← hindex]
  exact hgood.indexed.of_below (List.take_prefix _ _) k entry hk

theorem Sim.applied_eq (hsim : Sim members c g) {a b : String} (ha : a ∈ members) (hb : b ∈ members)
    {x y : Application} (hx : x ∈ (c.nodes a).applied) (hy : y ∈ (c.nodes b).applied)
    (hindex : x.index = y.index) : x.command = y.command := by
  obtain ⟨k, entry, hk, hxk, hxc⟩ := Good.applied_mem (hsim.good a ha) hx
  obtain ⟨m, entry', hm, hym, hyc⟩ := Good.applied_mem (hsim.good b hb) hy
  obtain rfl : k = m := by omega
  have hagree := (hsim.good a ha).record.committed_agree (hsim.good a ha).node.commit.2
    (hsim.good b hb).node.commit.2
  have hsame : entry = entry' := by
    rcases hagree with hpre | hpre
    · exact some.inj ((getElem?_of_below hpre hk).symm.trans hm)
    · exact some.inj (hk.symm.trans (getElem?_of_below hpre hm))
  rw [hxc, hyc, hsame]

/-- In every run the members apply the same commands, and what is committed stays so. -/
theorem stateMachineSafe_of_run (members : Finset String) (h : List (Cluster × RaftEvent))
    (c : Cluster) (hrun : Run members h c) : StateMachineSafe members h c := by
  obtain ⟨g, hrec⟩ := recorded_of_run hrun
  refine ⟨fun c1 hc1 c2 hc2 a ha b hb x hx y hy => ?_, fun a ha => ⟨fun c1 hc1 => ?_, ?_⟩⟩
  · -- all that was ever applied is in the traces of the last state
    exact hrec.sim.applied_eq ha hb (((hrec.later c1 hc1).applied a ha).subset hx)
      (((hrec.later c2 hc2).applied b hb).subset hy)
  · exact hrec.bounded c1 hc1 a ha
  · exact hrec.ordered a ha

def replication : List RaftEvent :=
  election ++
  [.createAppendEntries "a" "b", .appendEntries "b" ⟨1, "a", 0, 0, [⟨1, 1, .noop, 0⟩], 0⟩ 0,
    .appendResponse "a" ⟨1, true, 1, "b"⟩ 5, .createAppendEntries "a" "b",
    .appendEntries "b" ⟨1, "a", 1, 1, [], 1⟩ 9]

theorem stateMachineSafe_replication : ∃ h c, Run {"a", "b"} h c ∧
    (c.nodes "a").applied = [⟨1, .noop, 5⟩] ∧ (c.nodes "b").applied = [⟨1, .noop, 9⟩] ∧
    StateMachineSafe {"a", "b"} h c := by
  have hex : (played {"a", "b"} replication).any (fun r => decide
      ((r.2.nodes "a").applied = [⟨1, .noop, 5⟩] ∧ (r.2.nodes "b").applied = [⟨1, .noop, 9⟩])) = true := by
    decide
  obtain ⟨⟨h, c⟩, hplayed, happlied⟩ := (any_eq_true _ _).mp hex
  obtain ⟨ha, hb⟩ := of_decide_eq_true happlied
  have hrun := run_of_played hplayed
  exact ⟨h, c, hrun, ha, hb, stateMachineSafe_of_run _ h c hrun⟩

end Cluster

end Velcrux.Consensus
