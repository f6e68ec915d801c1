import Velcrux.TxSnapshot.Engine

/-!
# What the calls of the engine do

One lemma for each call says when it succeeds and what it changes. The loop of `commit_2pc` visits every
staged path once, so that the order of its pass does not matter.
-/

namespace Velcrux.TxSnapshot

open List SortedMap

variable {ops : List (String × StagedFileOp)} {participants : List String}
  {pass : Iteration (String × StagedFileOp)} {votes : List TwoPhaseVote} {tag : Option String}
  {timestamp : ℕ} {cleanup : Cleanup}

namespace Commit

variable {c : Commit} {p q : String} {op : StagedFileOp}

theorem promote_frame (c : Commit) (p : String) (op : StagedFileOp) :
    ∃ revisions files, c.promote p op =
      { c with catalog := { c.catalog with fileRevisions := revisions }, files := files } := by
  rw [promote]
  split <;> exact ⟨_, _, rfl⟩

theorem latest_record (c : Commit) (p q : String) {r : FileRevision}
    (hr : r.revisionId = c.catalog.latest p + 1) :
    (c.record p r).latest q = if p = q then c.catalog.latest p + 1 else c.catalog.latest q := by
  by_cases hpq : p = q
  · subst hpq
    simp [record, SnapshotCatalog.latest, hr]
  · simp [record, SnapshotCatalog.latest, hpq, Function.update_of_ne (Ne.symm hpq)]

theorem latest_promote (c : Commit) (p q : String) (op : StagedFileOp) :
    (c.promote p op).catalog.latest q =
      if p = q then c.catalog.latest p + 1 else c.catalog.latest q := by
  rw [promote]
  split <;> exact c.latest_record p q rfl

theorem files_promote_write (h : op.kind = .write) :
    (c.promote p op).files = c.files.insert p (c.revision p op) := by
  simp [promote, h]

theorem files_promote_delete (h : op.kind = .delete) :
    (c.promote p op).files = c.files.erase p := by
  simp [promote, h]

theorem promoteAll_frame (c : Commit) (ops : List (String × StagedFileOp)) :
    ∃ revisions files, c.promoteAll ops =
      { c with catalog := { c.catalog with fileRevisions := revisions }, files := files } := by
  induction ops generalizing c with
  | nil => exact ⟨_, _, rfl⟩
  | cons x ops ih =>
    obtain ⟨revisions, files, hx⟩ := c.promote_frame x.1 x.2
    obtain ⟨revisions', files', hops⟩ := ih (c.promote x.1 x.2)
    refine ⟨revisions', files', ?_⟩
    rw [promoteAll, foldl_cons, ← promoteAll, hops, hx]

@[simp] theorem promoteAll_snapshots (c : Commit) (ops : List (String × StagedFileOp)) :
    (c.promoteAll ops).catalog.snapshots = c.catalog.snapshots := by
  obtain ⟨revisions, files, h⟩ := c.promoteAll_frame ops
  rw [h]

@[simp] theorem promoteAll_currentEpoch (c : Commit) (ops : List (String × StagedFileOp)) :
    (c.promoteAll ops).catalog.currentEpoch = c.catalog.currentEpoch := by
  obtain ⟨revisions, files, h⟩ := c.promoteAll_frame ops
  rw [h]

@[simp] theorem promoteAll_cons (c : Commit) (x : String × StagedFileOp)
    (ops : List (String × StagedFileOp)) :
    c.promoteAll (x :: ops) = (c.promote x.1 x.2).promoteAll ops := rfl

theorem latest_le_promoteAll (c : Commit) (ops : List (String × StagedFileOp)) (q : String) :
    c.catalog.latest q ≤ (c.promoteAll ops).catalog.latest q := by
  induction ops generalizing c with
  | nil => exact le_rfl
  | cons x ops ih =>
    refine le_trans ?_ (ih (c.promote x.1 x.2))
    rw [latest_promote]
    split_ifs with hq
    · rw [hq]
      exact Nat.le_succ _
    · exact le_rfl

theorem latest_lt_promoteAll (h : (p, op) ∈ ops) :
    c.catalog.latest p < (c.promoteAll ops).catalog.latest p := by
  induction ops generalizing c with
  | nil => cases h
  | cons x ops ih =>
    rcases mem_cons.mp h with rfl | h
    · have hle := (c.promote p op).latest_le_promoteAll ops p
      rw [latest_promote, if_pos rfl] at hle
      exact hle
    · refine lt_of_le_of_lt ?_ (ih h)
      rw [latest_promote]
      split_ifs with hq
      · rw [hq]
        exact Nat.le_succ _
      · exact le_rfl

structure Plain (ops : List (String × StagedFileOp)) : Prop where
  distinct : ops.Pairwise fun x y => x.1 ≠ y.1
  kinds : ∀ x ∈ ops, x.2.kind = .write ∨ x.2.kind = .delete

theorem Plain.tail {x : String × StagedFileOp} (h : Plain (x :: ops)) : Plain ops :=
  ⟨(pairwise_cons.mp h.distinct).2, fun y hy => h.kinds y (mem_cons_of_mem x hy)⟩

theorem Plain.not_mem {x : String × StagedFileOp} (h : Plain (x :: ops)) : ∀ op, (x.1, op) ∉ ops :=
  fun _ hmem => (pairwise_cons.mp h.distinct).1 _ hmem rfl

theorem Plain.perm {ops' : List (String × StagedFileOp)} (h : Plain ops)
    (hperm : ops'.Perm ops) : Plain ops' :=
  ⟨(hperm.pairwise_iff fun hxy => hxy.symm).mpr h.distinct,
    fun x hx => h.kinds x (hperm.mem_iff.mp hx)⟩

theorem promoteAll_unstaged (h : Plain ops)
    (hp : ∀ op, (p, op) ∉ ops) : (c.promoteAll ops).files.get? p = c.files.get? p ∧
      (c.promoteAll ops).catalog.latest p = c.catalog.latest p := by
  induction ops generalizing c with
  | nil => exact ⟨rfl, rfl⟩
  | cons x ops ih =>
    have hne : x.1 ≠ p := fun heq => hp x.2 (heq ▸ mem_cons_self)
    obtain ⟨hfiles, hlatest⟩ :=
      ih h.tail fun op hop => hp op (mem_cons_of_mem x hop)
    rw [promoteAll_cons, hfiles, hlatest, latest_promote, if_neg hne]
    refine ⟨?_, rfl⟩
    rcases h.kinds x mem_cons_self with hkind | hkind
    · rw [files_promote_write hkind, get?_insert, if_neg hne]
    · rw [files_promote_delete hkind, get?_erase, if_neg hne]

theorem promoteAll_mem (h : Plain ops) (hmem : (p, op) ∈ ops) :
    ∃ c' : Commit, (c.promoteAll ops).files.get? p = (c'.promote p op).files.get? p ∧
      c'.catalog.latest p = c.catalog.latest p := by
  induction ops generalizing c with
  | nil => cases hmem
  | cons x ops ih =>
    rcases mem_cons.mp hmem with rfl | hrest
    · exact ⟨c, (promoteAll_unstaged h.tail h.not_mem).1, rfl⟩
    · have hne : x.1 ≠ p := (pairwise_cons.mp h.distinct).1 _ hrest
      obtain ⟨c', hfiles, hlatest⟩ := ih h.tail hrest
      rw [latest_promote, if_neg hne] at hlatest
      exact ⟨c', hfiles, hlatest⟩

theorem promoteAll_write (h : Plain ops) (hmem : (p, op) ∈ ops)
    (hkind : op.kind = .write) : ∃ r, (c.promoteAll ops).files.get? p = some r ∧
      r.revisionId = c.catalog.latest p + 1 ∧ r.path = p ∧ r.size = op.size ∧ r.hash = op.hash ∧
      r.isTombstone = false := by
  obtain ⟨c', hfiles, hlatest⟩ := promoteAll_mem h hmem
  rw [files_promote_write hkind, get?_insert, if_pos rfl] at hfiles
  exact ⟨_, hfiles, congrArg (· + 1) hlatest, rfl, rfl, rfl, rfl⟩

theorem promoteAll_delete (h : Plain ops) (hmem : (p, op) ∈ ops)
    (hkind : op.kind = .delete) : (c.promoteAll ops).files.get? p = none := by
  obtain ⟨c', hfiles, -⟩ := promoteAll_mem h hmem
  rwa [files_promote_delete hkind, get?_erase, if_pos rfl] at hfiles

end Commit

namespace Engine

variable {H : HashFn} {e e' : Engine} {txId : String} {info : ActiveTxMeta}

theorem loadTxMeta_ok_iff : e.loadTxMeta txId = .ok info ↔ e.metas txId = some info := by
  rw [loadTxMeta]
  split <;> simp_all

theorem metas_saveTxMeta (e : Engine) (hid : info.txId = txId) :
    (e.saveTxMeta info).metas txId = some info := by
  rw [← hid]
  exact Function.update_self _ _ _

theorem metas_saveTxMeta_of_ne (e : Engine) (hne : txId ≠ info.txId) :
    (e.saveTxMeta info).metas txId = e.metas txId :=
  Function.update_of_ne hne _ _

@[simp] theorem catalog_finish2pc (e : Engine) (txId : String) (info : ActiveTxMeta) (cleanup : Cleanup) :
    (e.finish2pc txId info cleanup).catalog = e.catalog := by
  unfold finish2pc removeStaged saveTxMeta
  split <;> rfl

theorem prepare2pc_ok {prepare : TwoPhasePrepare}
    (h : e.prepare2pc H txId participants pass = (e', .ok prepare)) :
    ∃ info, e.metas txId = some info ∧ info.state = .active ∧
      e' = e.saveTxMeta { info with state := .prepared, preparedManifest := some prepare } := by
  unfold prepare2pc at h
  cases hload : e.loadTxMeta txId with
  | error err =>
    rw [hload] at h
    cases h
  | ok info =>
    rw [hload] at h
    dsimp only at h
    by_cases hstate : info.state = .active
    · rw [if_neg (not_not.mpr hstate)] at h
      split at h
      · cases h
      · obtain ⟨rfl, rfl⟩ := h
        exact ⟨info, loadTxMeta_ok_iff.mp hload, hstate, rfl⟩
    · rw [if_pos hstate] at h
      cases h

theorem prepare2pc_error
    {err : VelcruxError} (h : e.prepare2pc H txId participants pass = (e', .error err)) : e' = e := by
  unfold prepare2pc at h
  split at h
  · exact (congrArg Prod.fst h).symm
  · split_ifs at h
    · exact (congrArg Prod.fst h).symm
    · split at h
      · exact (congrArg Prod.fst h).symm
      · cases h

theorem admit2pc_ok_iff {removal : Removal} :
    e.admit2pc txId votes removal = (e', .ok info) ↔
      e' = e ∧ e.metas txId = some info ∧ info.state = .prepared ∧ firstAbort votes = none := by
  unfold admit2pc
  cases hload : e.loadTxMeta txId with
  | error err =>
    have hnone : e.metas txId ≠ some info := fun h => by simp [loadTxMeta, h] at hload
    simp [hnone]
  | ok found =>
    have hfound := loadTxMeta_ok_iff.mp hload
    dsimp only
    by_cases hstate : found.state = .prepared
    · rw [if_neg (not_not.mpr hstate)]
      cases hvotes : firstAbort votes with
      | some v => simp
      | none =>
        simp only [Prod.mk.injEq, Except.ok.injEq, hfound, Option.some.injEq, and_true]
        constructor
        · rintro ⟨rfl, rfl⟩
          exact ⟨rfl, rfl, hstate⟩
        · rintro ⟨rfl, rfl, -⟩
          exact ⟨rfl, rfl⟩
    · rw [if_pos hstate]
      simp only [Prod.mk.injEq, reduceCtorEq, and_false, false_iff, hfound, Option.some.injEq]
      rintro ⟨-, rfl, h, -⟩
      exact hstate h

theorem commit2pc_ok {m : GlobalSnapshotManifest}
    (h : e.commit2pc H txId votes tag timestamp pass cleanup = (e', .ok m)) :
    ∃ info c versions, e.metas txId = some info ∧
      c = (Commit.start e.nodeId txId info votes tag timestamp e.catalog).promoteAll
        (pass.order info.stagedOps.entries) ∧ m = c.manifest H ∧
      e' = { e with versions := versions, catalog := c.publish H }.finish2pc txId info cleanup := by
  unfold commit2pc at h
  split at h
  · cases h
  · rename_i e1 info hadmit
    obtain ⟨rfl, hinfo, -⟩ := admit2pc_ok_iff.mp hadmit
    obtain ⟨rfl, rfl⟩ := h
    exact ⟨info, _, _, hinfo, rfl, rfl, rfl⟩

theorem commit2pc_error {err : VelcruxError}
    (h : e.commit2pc H txId votes tag timestamp pass cleanup = (e', .error err)) :
    e' = e ∨ (∃ info, e.metas txId = some info ∧ info.state = .prepared) ∧
      (firstAbort votes).isSome ∧ e' = e.abortTx txId cleanup.removal := by
  unfold commit2pc admit2pc at h
  cases hload : e.loadTxMeta txId with
  | error err' =>
    simp only [hload, Prod.mk.injEq] at h
    exact .inl h.1.symm
  | ok info =>
    simp only [hload] at h
    by_cases hstate : info.state = .prepared
    · simp only [if_neg (not_not.mpr hstate)] at h
      cases hvotes : firstAbort votes with
      | none =>
        rw [hvotes] at h
        cases h
      | some v =>
        simp only [hvotes, Prod.mk.injEq] at h
        exact .inr ⟨⟨info, loadTxMeta_ok_iff.mp hload, hstate⟩, rfl, h.1.symm⟩
    · simp only [if_pos hstate, Prod.mk.injEq] at h
      exact .inl h.1.symm

theorem prepare2pc_of_active (hinfo : e.metas txId = some info) (hstate : info.state = .active)
    (hfree : ∀ x ∈ info.stagedOps.entries, e.catalog.conflict x.2 = none) :
    ∃ prepare, e.prepare2pc H txId participants pass =
      (e.saveTxMeta { info with state := .prepared, preparedManifest := some prepare }, .ok prepare) := by
  have hnone : ((pass.order info.stagedOps.entries).findSome? fun x =>
      (e.catalog.conflict x.2).map fun c => (x.2.path, c.1, c.2)) = none := by
    refine List.findSome?_eq_none_iff.mpr fun x hx => ?_
    rw [hfree x ((pass.perm _).mem_iff.mp hx)]
    rfl
  unfold prepare2pc
  rw [loadTxMeta_ok_iff.mpr hinfo]
  dsimp only
  rw [if_neg (not_not.mpr hstate), hnone]
  exact ⟨_, rfl⟩

theorem commit2pc_of_prepared (hinfo : e.metas txId = some info)
    (hstate : info.state = .prepared) (hvotes : firstAbort votes = none) :
    ∃ e' m, e.commit2pc H txId votes tag timestamp pass cleanup = (e', .ok m) := by
  unfold commit2pc
  rw [admit2pc_ok_iff.mpr ⟨rfl, hinfo, hstate, hvotes⟩]
  exact ⟨_, _, rfl⟩

end Engine

end Velcrux.TxSnapshot
