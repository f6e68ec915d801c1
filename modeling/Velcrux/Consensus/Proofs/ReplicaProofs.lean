import Velcrux.Consensus.Replicas
import Velcrux.Consensus.Proofs.ClusterProofs

/-!
# When replicas agree

The metadata of a node is what its calls of `apply` leave behind. Only the leases that stand depend on the
clock, each on the reading at the command that granted it.
-/

namespace Velcrux.Consensus

open List Function ClusterMetadataStateMachine Application

open Raft (Record)

variable {calls calls' : List Application} {resource holder : String} {lease : ClusterLease}
  {before : List RaftCommand} {command : RaftCommand} {k : ℕ}

def replay (calls : List Application) : ClusterMetadataStateMachine :=
  calls.foldl (fun sm a => sm.apply a.command a.nowSecs) .empty

def commands (calls : List Application) : List RaftCommand := calls.map Application.command

theorem replay_concat (calls : List Application) (a : Application) :
    replay (calls ++ [a]) = (replay calls).apply a.command a.nowSecs := by
  rw [replay, foldl_append]
  rfl

theorem commands_concat (calls : List Application) (a : Application) :
    commands (calls ++ [a]) = commands calls ++ [a.command] := map_append

theorem epochFence_concat (before : List RaftCommand) (command : RaftCommand) :
    epochFence (before ++ [command]) = match command with
      | .fenceEpoch nodeId minValidEpoch =>
        Function.update (epochFence before) nodeId (some minValidEpoch)
      | _ => epochFence before := by
  rw [epochFence, foldl_append]
  rfl

theorem replay_fencedEpochs (calls : List Application) :
    (replay calls).fencedEpochs = epochFence (commands calls) := by
  induction calls using List.reverseRecOn with
  | nil => rfl
  | append_singleton calls a ih =>
    rw [replay_concat, commands_concat, epochFence_concat, ← ih]
    cases a.command with
    | acquireLease | releaseLease => unfold apply; dsimp only; split <;> rfl
    | _ => rfl

theorem fenced_eq_false_iff (calls : List Application) (holder : String) (epoch : ℕ) :
    (replay calls).fenced holder epoch = false ↔
      ∀ minEpoch, epochFence (commands calls) holder = some minEpoch → minEpoch ≤ epoch := by
  rw [fenced, replay_fencedEpochs]
  cases epochFence (commands calls) holder with
  | none => simp
  | some minEpoch => simp

theorem apply_others {sm sm' : ClusterMetadataStateMachine} (hnodes : sm.nodes = sm'.nodes)
    (hmeta : sm.metadata = sm'.metadata) (command : RaftCommand) (nowSecs nowSecs' : ℕ) :
    (sm.apply command nowSecs).nodes = (sm'.apply command nowSecs').nodes ∧
      (sm.apply command nowSecs).metadata = (sm'.apply command nowSecs').metadata := by
  cases command with
  | acquireLease | releaseLease =>
    unfold apply
    dsimp only
    split <;> split <;> exact ⟨hnodes, hmeta⟩
  | _ => simp only [apply, hnodes, hmeta, and_self]

theorem replay_others (h : commands calls = commands calls') :
    (replay calls).nodes = (replay calls').nodes ∧ (replay calls).metadata = (replay calls').metadata := by
  induction calls using List.reverseRecOn generalizing calls' with
  | nil =>
    obtain rfl : calls' = [] := map_eq_nil_iff.mp h.symm
    exact ⟨rfl, rfl⟩
  | append_singleton calls a ih =>
    rcases eq_nil_or_concat' calls' with rfl | ⟨calls', a', rfl⟩
    · rw [commands_concat] at h
      exact absurd h (append_ne_nil_of_right_ne_nil _ nofun)
    · rw [commands_concat, commands_concat] at h
      obtain ⟨hcalls, ha⟩ := append_inj' h rfl
      obtain ⟨hnodes, hmeta⟩ := ih hcalls
      rw [replay_concat, replay_concat, ← (List.cons.inj ha).1]
      exact apply_others hnodes hmeta _ _ _

/-! ## Leases that stand -/

def LeaseOf (a : Application) (resource holder : String) (lease : ClusterLease) : Prop :=
  ∃ ttlMs epoch, a.command = .acquireLease resource holder ttlMs epoch ∧
    lease = leaseFrom resource holder ttlMs epoch a.nowSecs

theorem LeaseOf.holder_eq {a : Application}
    (h : LeaseOf a resource holder lease) : lease.holder = holder := by
  obtain ⟨ttlMs, epoch, -, rfl⟩ := h
  rfl

theorem Stands.of_concat (h : Stands (before ++ [command]) k resource holder)
    (hk : k < before.length) : Stands before k resource holder := by
  obtain ⟨⟨granting, hget, hgrants⟩, hlater⟩ := h
  rw [List.getElem?_append_left hk] at hget
  rw [take_append_of_le_length hk.le] at hgrants
  refine ⟨⟨granting, hget, hgrants⟩, fun j later hj hlater' => ?_⟩
  have hlt := (List.getElem?_eq_some_iff.mp hlater').1
  have := hlater j later hj (by rw [List.getElem?_append_left hlt]; exact hlater')
  rwa [take_append_of_le_length hlt.le] at this

theorem Stands.concat (h : Stands before k resource holder)
    (hrelease : command ≠ .releaseLease resource holder)
    (hgrants : ∀ other, ¬ Grants before command resource other) :
    Stands (before ++ [command]) k resource holder := by
  obtain ⟨⟨granting, hget, hgrants'⟩, hlater⟩ := h
  have hk := (List.getElem?_eq_some_iff.mp hget).1
  refine ⟨⟨granting, ?_, ?_⟩, fun j later hj hj' => ?_⟩
  · rw [List.getElem?_append_left hk]
    exact hget
  · rw [take_append_of_le_length hk.le]
    exact hgrants'
  · rcases Nat.lt_trichotomy j before.length with hlt | rfl | hgt
    · rw [List.getElem?_append_left hlt] at hj'
      rw [take_append_of_le_length hlt.le]
      exact hlater j later hj hj'
    · rw [List.getElem?_concat_length] at hj'
      rw [take_left' rfl, ← Option.some.inj hj']
      exact ⟨hrelease, hgrants⟩
    · rw [List.getElem?_eq_none (by rw [length_append, length_singleton]; omega)] at hj'
      cases hj'

theorem Stands.last (h : Grants before command resource holder) :
    Stands (before ++ [command]) before.length resource holder := by
  refine ⟨⟨command, List.getElem?_concat_length, ?_⟩, fun j later hj hj' => ?_⟩
  · rw [take_left' rfl]
    exact h
  · rw [List.getElem?_eq_none (by rw [length_append, length_singleton]; omega)] at hj'
    cases hj'

inductive LeaseStep (calls : List Application) (a : Application) (resource : String) : Prop
  | granted (holder : String) (lease : ClusterLease)
      (hgrants : Grants (commands calls) a.command resource holder)
      (hlease : LeaseOf a resource holder lease)
      (hleases : ((replay calls).apply a.command a.nowSecs).leases resource = some lease)
  | released (lease : ClusterLease) (hlease : (replay calls).leases resource = some lease)
      (hcommand : a.command = .releaseLease resource lease.holder)
      (hleases : ((replay calls).apply a.command a.nowSecs).leases resource = none)
  | kept (hgrants : ∀ holder, ¬ Grants (commands calls) a.command resource holder)
      (hrelease : ∀ lease, (replay calls).leases resource = some lease →
        a.command ≠ .releaseLease resource lease.holder)
      (hleases : ((replay calls).apply a.command a.nowSecs).leases resource =
        (replay calls).leases resource)

theorem leaseStep_acquire (calls : List Application) (index nowSecs : ℕ)
    (resource resource' holder : String) (ttlMs epoch : ℕ) :
    LeaseStep calls ⟨index, .acquireLease resource' holder ttlMs epoch, nowSecs⟩ resource := by
  by_cases hfenced : (replay calls).fenced holder epoch = true
  · refine .kept ?_ nofun ?_
    · rintro other ⟨ttlMs', epoch', hcommand, hvalid⟩
      cases hcommand
      rw [(fenced_eq_false_iff calls holder epoch).mpr hvalid] at hfenced
      cases hfenced
    · unfold apply
      dsimp only
      rw [if_pos hfenced]
  · have hvalid := (fenced_eq_false_iff calls holder epoch).mp (Bool.eq_false_of_not_eq_true hfenced)
    have hleases : ((replay calls).apply (.acquireLease resource' holder ttlMs epoch) nowSecs).leases =
        Function.update (replay calls).leases resource'
          (some (leaseFrom resource' holder ttlMs epoch nowSecs)) := by
      unfold apply
      dsimp only
      rw [if_neg hfenced]
    by_cases hsame : resource = resource'
    · subst hsame
      refine .granted holder _ ⟨ttlMs, epoch, rfl, hvalid⟩ ⟨ttlMs, epoch, rfl, rfl⟩ ?_
      rw [hleases, update_self]
    · refine .kept ?_ nofun ?_
      · rintro other ⟨ttlMs', epoch', hcommand, -⟩
        cases hcommand
        exact hsame rfl
      · rw [hleases, update_of_ne hsame]

theorem leaseStep_release (calls : List Application) (index nowSecs : ℕ)
    (resource resource' holder : String) :
    LeaseStep calls ⟨index, .releaseLease resource' holder, nowSecs⟩ resource := by
  have hgrants : ∀ other, ¬ Grants (commands calls) (.releaseLease resource' holder) resource other := by
    rintro other ⟨ttlMs, epoch, hcommand, -⟩
    cases hcommand
  by_cases hany : ((replay calls).leases resource').any fun existing => existing.holder = holder
  · have hleases : ((replay calls).apply (.releaseLease resource' holder) nowSecs).leases =
        Function.update (replay calls).leases resource' none := by
      unfold apply
      dsimp only
      rw [if_pos hany]
    by_cases hsame : resource = resource'
    · subst hsame
      obtain ⟨lease, hlease, hholder⟩ := (Option.any_eq_true _ _).mp hany
      have hholder : lease.holder = holder := of_decide_eq_true hholder
      refine .released lease hlease (by rw [hholder]) ?_
      rw [hleases, update_self]
    · refine .kept hgrants (fun lease _ hcommand => ?_) ?_
      · exact hsame (RaftCommand.releaseLease.inj hcommand).1.symm
      · rw [hleases, update_of_ne hsame]
  · refine .kept hgrants (fun lease hlease hcommand => hany ?_) ?_
    · obtain ⟨rfl, rfl⟩ := RaftCommand.releaseLease.inj hcommand
      rw [hlease]
      exact decide_eq_true rfl
    · unfold apply
      dsimp only
      rw [if_neg hany]

theorem leaseStep (calls : List Application) (a : Application) (resource : String) :
    LeaseStep calls a resource := by
  obtain ⟨index, command, nowSecs⟩ := a
  cases command with
  | acquireLease resource' holder ttlMs epoch => exact leaseStep_acquire _ _ _ _ _ _ _ _
  | releaseLease resource' holder => exact leaseStep_release _ _ _ _ _ _
  | _ => exact .kept (fun _ ⟨_, _, hcommand, _⟩ => by cases hcommand) nofun rfl

theorem stands_of_lease (h : (replay calls).leases resource = some lease) :
    ∃ k a, calls[k]? = some a ∧ Stands (commands calls) k resource lease.holder ∧
      LeaseOf a resource lease.holder lease := by
  induction calls using List.reverseRecOn with
  | nil => cases h
  | append_singleton calls a ih =>
    rw [replay_concat] at h
    rw [commands_concat]
    cases leaseStep calls a resource with
    | granted holder lease' hgrants hlease hleases =>
      rw [hleases] at h
      cases h
      rw [hlease.holder_eq]
      refine ⟨calls.length, a, List.getElem?_concat_length, ?_, hlease⟩
      have := Stands.last hgrants
      rwa [commands, length_map] at this
    | released old hold hcommand hleases =>
      rw [hleases] at h
      cases h
    | kept hgrants hrelease hleases =>
      rw [hleases] at h
      obtain ⟨k, a', hget, hstands, hlease⟩ := ih h
      refine ⟨k, a', ?_, hstands.concat (hrelease lease h) hgrants, hlease⟩
      rw [List.getElem?_append_left (List.getElem?_eq_some_iff.mp hget).1]
      exact hget

theorem lease_of_stands (h : Stands (commands calls) k resource holder) :
    ∃ a lease, calls[k]? = some a ∧ LeaseOf a resource holder lease ∧
      (replay calls).leases resource = some lease := by
  induction calls using List.reverseRecOn with
  | nil =>
    obtain ⟨⟨command, hget, -⟩, -⟩ := h
    cases hget
  | append_singleton calls a ih =>
    rw [commands_concat] at h
    rw [replay_concat]
    have hlen : (commands calls).length = calls.length := length_map _
    obtain ⟨⟨command, hget, hgrants⟩, hlater⟩ := h
    rcases Nat.lt_trichotomy k (commands calls).length with hlt | rfl | hgt
    · obtain ⟨a', lease, hget', hlease, hleases⟩ := ih (Stands.of_concat ⟨⟨command, hget, hgrants⟩, hlater⟩ hlt)
      have hlast := hlater (commands calls).length a.command hlt List.getElem?_concat_length
      rw [take_left' rfl] at hlast
      refine ⟨a', lease, ?_, hlease, ?_⟩
      · rw [List.getElem?_append_left (hlen ▸ hlt)]
        exact hget'
      · cases leaseStep calls a resource with
        | granted other _ hgrants' _ _ => exact absurd hgrants' (hlast.2 other)
        | released old hold hcommand _ =>
          rw [hleases] at hold
          cases hold
          exact absurd (hlease.holder_eq ▸ hcommand) hlast.1
        | kept _ _ hkept => exact hkept.trans hleases
    · rw [List.getElem?_concat_length] at hget
      rw [take_left' rfl, ← Option.some.inj hget] at hgrants
      cases leaseStep calls a resource with
      | granted holder' lease hgrants' hlease hleases =>
        obtain ⟨ttlMs, epoch, hcommand, -⟩ := hgrants
        have hsame : holder' = holder := by
          obtain ⟨ttlMs', epoch', hcommand', -⟩ := hgrants'
          rw [hcommand] at hcommand'
          exact (RaftCommand.acquireLease.inj hcommand').2.1.symm
        refine ⟨a, lease, ?_, hsame ▸ hlease, hleases⟩
        rw [hlen]
        exact List.getElem?_concat_length
      | released _ _ hcommand _ =>
        obtain ⟨ttlMs, epoch, hcommand', -⟩ := hgrants
        rw [hcommand'] at hcommand
        cases hcommand
      | kept hgrants' _ _ => exact absurd hgrants (hgrants' _)
    · rw [List.getElem?_eq_none (by rw [length_append, length_singleton]; omega)] at hget
      cases hget

/-! ## Equal metadata -/

theorem leases_of_clocks (h : commands calls = commands calls')
    (hclocks : ∀ k resource holder, Stands (commands calls) k resource holder →
      (calls[k]?).map nowSecs = (calls'[k]?).map nowSecs) (hlease : (replay calls).leases resource = some lease) :
    (replay calls').leases resource = some lease := by
  obtain ⟨k, a, hget, hstands, ttlMs, epoch, hcommand, heq⟩ := stands_of_lease hlease
  have hstands' := hstands
  rw [h] at hstands'
  obtain ⟨a', lease', hget', ⟨ttlMs', epoch', hcommand', rfl⟩, hlease'⟩ := lease_of_stands hstands'
  have hclock : a.nowSecs = a'.nowSecs := by
    have := hclocks k resource lease.holder hstands
    rw [hget, hget'] at this
    exact Option.some.inj this
  have hsame : a.command = a'.command := by
    have := congrArg (·[k]?) h
    simp only [commands, List.getElem?_map, hget, hget', Option.map_some, Option.some.injEq] at this
    exact this
  rw [hcommand, hcommand'] at hsame
  cases hsame
  rw [hlease', heq, hclock]
  rfl

/-- Calls with the same commands leave equal metadata behind exactly if their clocks agree at the
commands whose leases stand. -/
theorem replay_eq_iff (h : commands calls = commands calls') :
    replay calls = replay calls' ↔
      ∀ k resource holder, Stands (commands calls) k resource holder →
        (calls[k]?).map nowSecs = (calls'[k]?).map nowSecs := by
  constructor
  · intro heq k resource holder hstands
    obtain ⟨a, lease, hget, ⟨ttlMs, epoch, hcommand, rfl⟩, hlease⟩ := lease_of_stands hstands
    rw [h] at hstands
    obtain ⟨a', lease', hget', ⟨ttlMs', epoch', hcommand', rfl⟩, hlease'⟩ := lease_of_stands hstands
    rw [heq, hlease'] at hlease
    have hgranted : a'.nowSecs = a.nowSecs :=
      congrArg ClusterLease.grantedAtSecs (Option.some.inj hlease)
    rw [hget, hget', Option.map_some, Option.map_some, hgranted]
  · intro hclocks
    obtain ⟨hnodes, hmeta⟩ := replay_others h
    have hfence : (replay calls).fencedEpochs = (replay calls').fencedEpochs := by
      rw [replay_fencedEpochs, replay_fencedEpochs, h]
    have hleases : (replay calls).leases = (replay calls').leases := by
      funext resource
      cases hl : (replay calls).leases resource with
      | some lease => exact (leases_of_clocks h hclocks hl).symm
      | none =>
        cases hl' : (replay calls').leases resource with
        | none => rfl
        | some lease =>
          have hback := leases_of_clocks h.symm
            (fun k resource holder hstands => (hclocks k resource holder (h ▸ hstands)).symm) hl'
          rw [hl] at hback
          cases hback
    cases hr : replay calls
    cases hr' : replay calls'
    rw [hr, hr'] at hnodes hmeta hfence hleases
    cases hnodes
    cases hmeta
    cases hfence
    cases hleases
    rfl

namespace Cluster

variable {members : Finset String} {g : Record String RaftLogEntry} {c : Cluster}

theorem Sim.commands_eq (hsim : Sim members c g) {a b : String} (ha : a ∈ members) (hb : b ∈ members)
    (hlast : (c.nodes a).lastApplied = (c.nodes b).lastApplied) :
    commands (c.nodes a).applied = commands (c.nodes b).applied := by
  have hcommands : ∀ i ∈ members, commands (c.nodes i).applied =
      (((c.nodes i).log.take (c.nodes i).commitIndex).take (c.nodes i).lastApplied).map
        RaftLogEntry.command := by
    intro i hi
    have htracks := (hsim.good i hi).own.tracks
    have htrace := congrArg (List.map Prod.snd) htracks.trace
    rw [map_map, map_map] at htrace
    rw [take_take, Nat.min_eq_left htracks.le]
    exact htrace
  have hreach : ∀ i ∈ members,
      (c.nodes i).lastApplied ≤ ((c.nodes i).log.take (c.nodes i).commitIndex).length := by
    intro i hi
    have hcommit : (c.nodes i).commitIndex ≤ (c.nodes i).log.length := (hsim.good i hi).node.commit.1
    rw [length_take_of_le hcommit]
    exact (hsim.good i hi).own.tracks.le
  rw [hcommands a ha, hcommands b hb, hlast]
  have hagree := (hsim.good a ha).record.committed_agree (hsim.good a ha).node.commit.2
    (hsim.good b hb).node.commit.2
  rcases hagree with ⟨rest, hrest⟩ | ⟨rest, hrest⟩
  · have hrest : (c.nodes a).log.take (c.nodes a).commitIndex ++ rest =
        (c.nodes b).log.take (c.nodes b).commitIndex := hrest
    rw [← hrest, take_append_of_le_length (hlast ▸ hreach a ha)]
  · have hrest : (c.nodes b).log.take (c.nodes b).commitIndex ++ rest =
        (c.nodes a).log.take (c.nodes a).commitIndex := hrest
    rw [← hrest, take_append_of_le_length (hreach b hb)]

/-- Members that have applied equally many entries have equal metadata exactly if the clocks they read
agree where a lease stands. -/
theorem replicasAgree_iff_clocksAgree (members : Finset String) (h : List (Cluster × RaftEvent))
    (c : Cluster) (hrun : Run members h c) : ReplicasAgree members c ↔ ClocksAgree members c := by
  obtain ⟨g, hrec⟩ := recorded_of_run hrun
  refine forall₄_congr fun a ha b hb => forall_congr' fun hlast => ?_
  rw [(hrec.sim.good a ha).own.tracks.machine, (hrec.sim.good b hb).own.tracks.machine]
  exact replay_eq_iff (hrec.sim.commands_eq ha hb hlast)

def leasing (first second : ℕ) : List RaftEvent :=
  election ++
  [.acquireLease "a" "r" "x" 5000 0 0 0, .createAppendEntries "a" "b",
    .appendEntries "b"
      ⟨1, "a", 0, 0, [⟨1, 1, .noop, 0⟩, ⟨2, 1, .acquireLease "r" "x" 5000 1, 0⟩], 0⟩ 0,
    .appendResponse "a" ⟨1, true, 2, "b"⟩ first, .createAppendEntries "a" "b",
    .appendEntries "b" ⟨1, "a", 2, 1, [], 2⟩ second]

theorem replicasAgree_leasing : ∃ h c, Run {"a", "b"} h c ∧
    ((c.nodes "b").stateMachine.leases "r").isSome ∧ ReplicasAgree {"a", "b"} c := by
  have hex : (played {"a", "b"} (leasing 5 5)).any (fun r => decide
      (((r.2.nodes "b").stateMachine.leases "r").isSome ∧
        (r.2.nodes "a").applied = (r.2.nodes "b").applied)) = true := by decide
  obtain ⟨⟨h, c⟩, hplayed, hdone⟩ := (Option.any_eq_true _ _).mp hex
  obtain ⟨hlease, happlied⟩ := of_decide_eq_true hdone
  have hrun := run_of_played hplayed
  refine ⟨h, c, hrun, hlease, (replicasAgree_iff_clocksAgree _ h c hrun).mpr ?_⟩
  have hsame : ∀ i ∈ ({"a", "b"} : Finset String), (c.nodes i).applied = (c.nodes "b").applied := by
    intro i hi
    rcases Finset.mem_insert.mp hi with rfl | hi
    · exact happlied
    · rw [Finset.mem_singleton.mp hi]
  intro i hi j hj _ k resource holder _
  rw [hsame i hi, hsame j hj]

/-- The follower applies the lease four seconds after the leader, and its lease ends later. -/
theorem not_replicasAgree_leasing : ∃ h c, Run {"a", "b"} h c ∧ ¬ ReplicasAgree {"a", "b"} c := by
  have hex : (played {"a", "b"} (leasing 5 9)).any (fun r => decide
      ((r.2.nodes "a").lastApplied = (r.2.nodes "b").lastApplied ∧
        (r.2.nodes "a").stateMachine.leases "r" ≠ (r.2.nodes "b").stateMachine.leases "r")) = true := by
    decide
  obtain ⟨⟨h, c⟩, hplayed, hdone⟩ := (Option.any_eq_true _ _).mp hex
  obtain ⟨hlast, hleases⟩ := of_decide_eq_true hdone
  refine ⟨h, c, run_of_played hplayed, fun hagree => hleases ?_⟩
  have hmachine := hagree "a" (by decide) "b" (by decide) hlast
  rw [hmachine]

end Cluster

end Velcrux.Consensus
