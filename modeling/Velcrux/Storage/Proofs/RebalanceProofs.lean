import Velcrux.Storage.Rebalance

/-!
# When rebalancing does what it should

`rebalance` copies nothing and divides the number of stored copies by the replication factor. So it
keeps its contract if there was nothing to do and the division gives the number of chunks.
-/

namespace Velcrux.Storage.ClusterMembers

variable {H : HashFn} {c : ClusterMembers} {quorum : QuorumPolicy} {held : Placement}

theorem entries_eq_nil (h : c.ring.nodes.card = 0) : c.nodes.entries = [] := by
  refine List.eq_nil_iff_forall_not_mem.2 fun x hx => ?_
  have hget : c.nodes.get? x.1 = some x.2 := (SortedMap.mem_entries_iff c.nodes).1 hx
  have hmem := (c.registered x.1).2 (by simp [hget])
  simp [Finset.card_eq_zero.1 h] at hmem

theorem missing_eq_nil_iff (h : Hash) :
    ((c.preference H quorum h).filter fun id => h ∉ held id).length = 0 ↔
      c.FullyReplicated H quorum held h := by
  simp [FullyReplicated]

/-- **Rebalancing restores replication** only where no copy was missing, and its counts are right
only if the copies are as many as the replication factor asks for. -/
theorem rebalances_iff (hread : ∀ x ∈ c.nodes.entries, x.2.state.canRead ∧ x.2.state.canWrite) :
    c.Rebalances H quorum held ↔
      (∀ h ∈ c.chunks held, ∀ id ∈ c.preference H quorum h, h ∈ held id) ∧
        (c.chunks held).card * max quorum.replicas 1 ≤ c.copies held ∧
        c.copies held < (c.chunks held).card * max quorum.replicas 1 + max quorum.replicas 1 := by
  by_cases hnone : c.ring.nodes.card = 0
  · have hnil := entries_eq_nil hnone
    have hchunks : c.chunks held = ∅ := by simp [chunks, hnil]
    refine iff_of_true ?_ ?_
    · simp [Rebalances, rebalance, hnone, hchunks]
    · simp [hchunks, copies, hnil]
  · have htotal : c.nodes.entries.filter (fun x => x.2.state.canRead) = c.nodes.entries :=
      List.filter_eq_self.2 fun x hx => (hread x hx).1
    have hdiv : c.copies held / max quorum.replicas 1 = (c.chunks held).card ↔
        (c.chunks held).card * max quorum.replicas 1 ≤ c.copies held ∧
          c.copies held <
            (c.chunks held).card * max quorum.replicas 1 + max quorum.replicas 1 := by
      rw [Nat.div_eq_iff (by omega)]
      exact and_congr_right fun _ => by omega
    rw [← hdiv, Rebalances, rebalance, if_neg hnone, htotal, ← copies]
    constructor
    · rintro ⟨hfull, hcount, -⟩
      exact ⟨hfull, hcount⟩
    · rintro ⟨hfull, hcount⟩
      refine ⟨hfull, hcount, ?_, ?_⟩
      · exact (Finset.sum_eq_zero fun h hh => (missing_eq_nil_iff h).2 (hfull h hh)).symm
      · have hall : (c.chunks held).filter (c.FullyReplicated H quorum held) = c.chunks held :=
          Finset.filter_true_of_mem hfull
        rw [hcount, hall]

def firstByteHash : HashFn := fun bytes => ⟨bytes.headD 0 :: List.replicate 31 0, rfl⟩

def twoMembers : ClusterMembers :=
  (new.registerNode firstByteHash ⟨"a", 1, .healthy, 1⟩).registerNode firstByteHash
    ⟨"b", 1, .healthy, 1⟩

theorem rebalances_twoMembers :
    twoMembers.Rebalances firstByteHash ⟨2, 1, 1, true⟩ fun _ => {Hash.zero, .repeated 1} :=
  (rebalances_iff (by decide)).2 (by decide)

/-- A chunk that only the first of two nodes holds. -/
theorem not_rebalances_twoMembers :
    (∀ x ∈ twoMembers.nodes.entries, x.2.state.canRead ∧ x.2.state.canWrite) ∧
      ¬ twoMembers.Rebalances firstByteHash ⟨2, 1, 1, true⟩
        fun id => if id = "a" then {Hash.zero} else ∅ := by
  refine ⟨by decide, fun h => ?_⟩
  exact absurd (h.1 Hash.zero (by decide) "b" (by decide)) (by decide)

end Velcrux.Storage.ClusterMembers
