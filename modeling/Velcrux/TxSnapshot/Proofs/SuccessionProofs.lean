import Velcrux.TxSnapshot.Succession
import Velcrux.TxSnapshot.Proofs.CommitProofs

/-!
# When snapshots build on one another

A commit starts from the snapshot with the greatest id: among the first `n`, the one with the
greatest number up to `n` of the form nines and a last digit.
-/

namespace Velcrux.TxSnapshot

open DecimalOrder List Option Engine Commit StageCall SortedMap

variable {H : HashFn} {nodeId : String} {ts : List Transaction} {ms : List GlobalSnapshotManifest}
  {e e' : Engine} {t : Transaction} {m : GlobalSnapshotManifest} {txId : String} {info : ActiveTxMeta}
  {n b : ℕ} {path : String}
variable {k : ℕ} {c : SnapshotCatalog}

def StageCall.op (H : HashFn) : StageCall → StagedFileOp
  | .file path data base nanos => ⟨cleanPath path, .write, data.length, H data,
      s!"data_{(H data).shortHex 16}_{nanos}.bin", base⟩
  | .delete path base => ⟨cleanPath path, .delete, 0, .zero, "", base⟩

variable (call : StageCall)

theorem StageCall.op_base : (call.op H).expectedBaseVersion = call.base := by
  cases call <;> rfl

theorem StageCall.op_kind : (call.op H).kind = .write ∨ (call.op H).kind = .delete := by
  cases call
  · exact .inl rfl
  · exact .inr rfl

theorem StageCall.run_ok_iff {op : StagedFileOp} : (call.run H e txId).2 = .ok op ↔
      ∃ info, e.metas txId = some info ∧ info.state = .active ∧ op = call.op H := by
  cases call <;>
  · simp only [run, stageFile, stageDelete]
    cases hload : e.loadTxMeta txId with
    | error err =>
      have hnone : ∀ info, e.metas txId ≠ some info := fun info h => by
        simp [loadTxMeta, h] at hload
      simp [hnone]
    | ok found =>
      have hfound := loadTxMeta_ok_iff.mp hload
      by_cases hstate : found.state = .active
      · simp [hfound, hstate, StageCall.op, eq_comm]
      · simp [hfound, hstate]

theorem StageCall.run_active (hinfo : e.metas txId = some info)
    (hstate : info.state = .active) : ∃ data, (call.run H e txId).1 =
      { e with
        data := data
        metas := Function.update e.metas info.txId (some { info with
          stagedOps := info.stagedOps.insert call.path (call.op H) }) } := by
  have hload := loadTxMeta_ok_iff.mpr hinfo
  cases call <;> simp only [run, stageFile, stageDelete, hload] <;>
    rw [if_neg (not_not.mpr hstate)] <;> exact ⟨_, rfl⟩

def stagedOps (H : HashFn) (calls : List StageCall) (ops : SortedMap String StagedFileOp) :
    SortedMap String StagedFileOp :=
  calls.foldl (fun ops call => ops.insert call.path (call.op H)) ops

theorem stageAll_active {calls : List StageCall} (hinfo : e.metas txId = some info)
    (hid : info.txId = txId) (hstate : info.state = .active) :
    ∃ e', stageAll H txId calls e = .ok e' ∧ e'.catalog = e.catalog ∧
      e'.metas txId = some { info with stagedOps := stagedOps H calls info.stagedOps } := by
  induction calls generalizing e info with
  | nil => exact ⟨e, rfl, rfl, hinfo⟩
  | cons call calls ih =>
    obtain ⟨data, hdata⟩ := run_active call hinfo hstate
    have hok : (call.run H e txId).2 = .ok (call.op H) :=
      (run_ok_iff call).mpr ⟨info, hinfo, hstate, rfl⟩
    have hmetas : (call.run H e txId).1.metas txId = some { info with
        stagedOps := info.stagedOps.insert call.path (call.op H) } := by
      rw [hdata, ← hid]
      exact Function.update_self _ _ _
    obtain ⟨e', he', hcatalog, hinfo'⟩ := ih hmetas hid hstate
    refine ⟨e', ?_, ?_, hinfo'⟩
    · rw [stageAll, show call.run H e txId = (_, .ok (call.op H)) from Prod.ext rfl hok]
      exact he'
    · rw [hcatalog, hdata]

variable (calls : List StageCall)

theorem get?_stagedOps : (stagedOps H calls .empty).get? path =
      (calls.reverse.find? fun call => call.path = path).map (op H) := by
  rw [stagedOps, get?_foldl_insert, get?_empty, or_none]

theorem mem_stagedOps {op : StagedFileOp} : (path, op) ∈ (stagedOps H calls .empty).entries ↔
      (calls.reverse.find? fun call => call.path = path).map (StageCall.op H) = some op := by
  rw [mem_entries_iff, get?_stagedOps]

theorem plain_stagedOps : Commit.Plain (stagedOps H calls .empty).entries where
  distinct := (stagedOps H calls .empty).sorted.imp fun hlt => ne_of_lt hlt
  kinds x hx := by
    obtain ⟨call, -, hcall⟩ := map_eq_some_iff.mp ((mem_stagedOps calls).mp hx)
    rw [← hcall]
    exact call.op_kind

theorem Transaction.run_ok (h : t.run H e = .ok (e', m)) : ∃ nodeId txId info ops c,
    Commit.Plain ops ∧
    (∀ p op, (p, op) ∈ ops ↔ (t.staged p).map (StageCall.op H) = some op) ∧
    c = (start nodeId txId info t.votes t.snapshotTag t.timestamp e.catalog).promoteAll ops ∧
    m = c.manifest H ∧ e'.catalog = c.publish H := by
  unfold run at h
  dsimp only at h
  generalize hbegin : e.beginTx H t.author t.nanos t.secs t.createdSecs = begun at h
  obtain ⟨info, hinfo, hid, hstate, hops, hcatalog⟩ : ∃ info, begun.1.metas begun.2 = some info ∧
      info.txId = begun.2 ∧ info.state = .active ∧ info.stagedOps = .empty ∧
      begun.1.catalog = e.catalog := by
    rw [← hbegin]
    exact ⟨_, Function.update_self _ _ _, rfl, rfl, rfl, rfl⟩
  obtain ⟨e1, hstage, hcatalog1, hinfo1⟩ : ∃ e1, stageAll H begun.2 t.stages begun.1 = .ok e1 ∧
      e1.catalog = begun.1.catalog ∧ e1.metas begun.2 = some { info with
        stagedOps := stagedOps H t.stages info.stagedOps } := stageAll_active hinfo hid hstate
  rw [hstage] at h
  dsimp only at h
  split at h
  · cases h
  rename_i e2 prepare hprepare
  split at h
  · cases h
  rename_i e3 m' hcommit
  obtain ⟨rfl, rfl⟩ := h
  obtain ⟨info1, hinfo1', -, rfl⟩ := prepare2pc_ok hprepare
  obtain ⟨info2, c, versions, hinfo2, hc, hm, he3⟩ := commit2pc_ok hcommit
  -- the operations that are committed are those that were staged
  have heq1 : info1 = { info with stagedOps := stagedOps H t.stages .empty } := by
    rw [hinfo1, hops] at hinfo1'
    exact (some.inj hinfo1').symm
  have hstaged : info2.stagedOps = stagedOps H t.stages .empty := by
    have hid1 : info1.txId = begun.2 := by rw [heq1, ← hid]
    have hsaved := (metas_saveTxMeta e1 (by exact hid1)).symm.trans hinfo2
    rw [← some.inj hsaved, heq1]
  have hcatalog3 : (e1.saveTxMeta { info1 with
      state := .prepared, preparedManifest := some prepare }).catalog = e.catalog :=
    hcatalog1.trans hcatalog
  rw [hstaged, hcatalog3] at hc
  have hperm := t.promotePass.perm (stagedOps H t.stages .empty).entries
  refine ⟨_, _, _, _, c, (plain_stagedOps t.stages).perm hperm, fun p op => ?_, hc, hm, ?_⟩
  · rw [hperm.mem_iff]
    exact mem_stagedOps t.stages
  · rw [he3, catalog_finish2pc]

def IdOf (epoch : ℕ) (id : String) : Prop :=
  ∃ x, id.toList = "snap-".toList ++ (Nat.toDigits 10 epoch ++ '-' :: x)

theorem idOf_snapshotId (c : Commit) : IdOf c.catalog.currentEpoch (c.snapshotId H) := by
  refine ⟨((computeSnapshotMerkleRoot H c.files).shortHex 8).toList, ?_⟩
  simp [snapshotId, toString]

theorem IdOf.lt {id id' : String} (hb : Leading n b) (hk : k ≤ n) (hne : k ≠ b)
    (hid : IdOf k id) (hid' : IdOf b id') : id < id' := by
  obtain ⟨x, hx⟩ := hid
  obtain ⟨y, hy⟩ := hid'
  rw [String.lt_iff_toList_lt, hx, hy]
  exact append_left_lt (lt_leading hb hk hne (by decide))

theorem IdOf.epoch_eq {id : String} (h : IdOf n id) (h' : IdOf k id) : n = k := by
  obtain ⟨x, hx⟩ := h
  obtain ⟨y, hy⟩ := h'
  exact toDigits_inj (by decide) (append_cancel_left (hx.symm.trans hy))

structure Catalogued (ms : List GlobalSnapshotManifest) (c : SnapshotCatalog) : Prop where
  epoch : c.currentEpoch = ms.length
  ids : ∀ n m, ms[n]? = some m → IdOf (n + 1) m.snapshotId
  snapshots : ∀ id m, c.snapshots.get? id = some m ↔ m ∈ ms ∧ m.snapshotId = id
  revisions : ∀ m ∈ ms, ∀ path r, m.files.get? path = some r → r.revisionId ≤ c.latest path

theorem filesAt_revision (h : Catalogued ms c) {r : FileRevision}
    (hr : filesAt ms k path = some r) : r.revisionId ≤ c.latest path := by
  cases k with
  | zero => exact absurd hr (by simp [filesAt])
  | succ k =>
    obtain ⟨m, hm, hfile⟩ := bind_eq_some_iff.mp hr
    exact h.revisions m (mem_of_getElem? hm) path r hfile

theorem filesAt_concat_of_le (hk : k ≤ ms.length) : filesAt (ms ++ [m]) k = filesAt ms k := by
  funext path
  cases k with
  | zero => rfl
  | succ k => rw [filesAt, filesAt, List.getElem?_append_left hk]

theorem filesAt_concat : filesAt (ms ++ [m]) (ms.length + 1) path = m.files.get? path := by
  rw [filesAt, List.getElem?_concat_length]
  rfl

theorem files_start (h : Catalogued ms c) (hb : Leading ms.length b)
    {txId : String} {info : ActiveTxMeta} {votes : List TwoPhaseVote} {tag : Option String}
    {timestamp : ℕ} :
    (start nodeId txId info votes tag timestamp c).files.get? path = filesAt ms b path := by
  rcases Nat.eq_zero_or_pos b with rfl | hpos
  · -- only zero is led by zero
    have hempty : ms = [] := by
      by_contra hne
      have := hb.greatest 1 ⟨0, by decide⟩ (length_pos_of_ne_nil hne)
      omega
    have hnone : c.snapshots.last? = none := by
      cases hlast : c.snapshots.last? with
      | none => rfl
      | some x =>
        have hx := (mem_entries_iff c.snapshots).mp (List.mem_of_getLast? hlast)
        exact absurd ((h.snapshots _ _).mp hx).1 (by simp [hempty])
    simp [start, hnone, filesAt]
  · obtain ⟨m, hm⟩ : ∃ m, ms[b - 1]? = some m :=
      ⟨_, List.getElem?_eq_getElem (show b - 1 < ms.length by have := hb.le; omega)⟩
    have hmem := (h.snapshots _ m).mpr ⟨mem_of_getElem? hm, rfl⟩
    have hidb : IdOf b m.snapshotId := by
      have := h.ids _ m hm
      rwa [Nat.sub_add_cancel hpos] at this
    have hlast : c.snapshots.last? = some (m.snapshotId, m) := by
      refine last?_of_greatest _ hmem fun id m' hid => ?_
      obtain ⟨hmem', rfl⟩ := (h.snapshots id m').mp hid
      obtain ⟨k, hk⟩ := mem_iff_getElem?.mp hmem'
      by_cases hkb : k + 1 = b
      · subst hkb
        rw [Nat.add_sub_cancel, hk] at hm
        rw [some.inj hm]
      · have hlt := (List.getElem?_eq_some_iff.mp hk).1
        exact le_of_lt (IdOf.lt hb hlt hkb (h.ids k m' hk) hidb)
    obtain ⟨k, rfl⟩ := Nat.exists_eq_add_of_le' hpos
    simp only [Nat.add_sub_cancel] at hm
    simp [start, hlast, filesAt, hm]

structure Layered (H : HashFn) (ts : List Transaction) (ms : List GlobalSnapshotManifest) : Prop where
  length : ms.length = ts.length
  based : ∀ n t b, ts[n]? = some t → Leading n b → ∀ path,
    Applied H path (filesAt ms b path) (filesAt ms (n + 1) path) (t.staged path)
  fresh : ∀ n t path p data base nanos, ts[n]? = some t →
    t.staged path = some (.file p data base nanos) →
    ∀ k ≤ n, filesAt ms (n + 1) path ≠ filesAt ms k path

variable {ops : List (String × StagedFileOp)}

theorem applied_promoteAll {c : Commit} (hplain : Commit.Plain ops)
    (hops : ∀ p op, (p, op) ∈ ops ↔ (t.staged p).map (StageCall.op H) = some op) :
    Applied H path (c.files.get? path) ((c.promoteAll ops).files.get? path) (t.staged path) := by
  cases hstaged : t.staged path with
  | none =>
    refine (promoteAll_unstaged hplain fun op hop => ?_).1
    have := (hops path op).mp hop
    rw [hstaged] at this
    cases this
  | some call =>
    have hmem : (path, call.op H) ∈ ops := (hops _ _).mpr (by rw [hstaged]; rfl)
    cases call with
    | file p data base nanos =>
      obtain ⟨r, hr, -, hpath, hsize, hhash, htomb⟩ := promoteAll_write hplain hmem rfl
      exact ⟨r, hr, hpath, hsize, hhash, htomb⟩
    | delete p base => exact promoteAll_delete hplain hmem rfl

theorem revision_promoteAll {c : Commit} (hplain : Commit.Plain ops)
    (hold : ∀ p r, c.files.get? p = some r → r.revisionId ≤ c.catalog.latest p) {r : FileRevision}
    (hr : (c.promoteAll ops).files.get? path = some r) :
    r.revisionId ≤ (c.promoteAll ops).catalog.latest path := by
  by_cases hmem : ∃ op, (path, op) ∈ ops
  · obtain ⟨op, hop⟩ := hmem
    rcases hplain.kinds _ hop with hkind | hkind
    · obtain ⟨r', hr', hrev, -⟩ := promoteAll_write hplain hop hkind
      rw [hr] at hr'
      rw [some.inj hr', hrev]
      exact latest_lt_promoteAll hop
    · rw [promoteAll_delete hplain hop hkind] at hr
      cases hr
  · obtain ⟨hfiles, hlatest⟩ := promoteAll_unstaged hplain fun op hop => hmem ⟨op, hop⟩
    rw [hlatest]
    exact hold path r (hfiles ▸ hr)

theorem Catalogued.commit {c' : Commit} (h : Catalogued ms c)
    (hepoch : c'.catalog.currentEpoch = c.currentEpoch + 1)
    (hsnapshots : c'.catalog.snapshots = c.snapshots)
    (hlatest : ∀ p, c.latest p ≤ c'.catalog.latest p)
    (hrevision : ∀ p r, c'.files.get? p = some r → r.revisionId ≤ c'.catalog.latest p) :
    Catalogued (ms ++ [c'.manifest H]) (c'.publish H) where
  epoch := by
    rw [length_append, ← h.epoch]
    exact hepoch
  ids n m hm := by
    rcases Nat.lt_trichotomy n ms.length with hlt | rfl | hgt
    · rw [List.getElem?_append_left hlt] at hm
      exact h.ids n m hm
    · rw [List.getElem?_concat_length] at hm
      rw [← some.inj hm, ← h.epoch, ← hepoch]
      exact idOf_snapshotId c'
    · rw [List.getElem?_eq_none (by simp; omega)] at hm
      cases hm
  snapshots id m := by
    have hnew : ∀ m' ∈ ms, m'.snapshotId ≠ c'.snapshotId H := by
      intro m' hm' heq
      obtain ⟨k, hk⟩ := mem_iff_getElem?.mp hm'
      have hlt := (List.getElem?_eq_some_iff.mp hk).1
      have hidk := h.ids k m' hk
      rw [heq] at hidk
      have := hidk.epoch_eq (idOf_snapshotId c')
      rw [hepoch, h.epoch] at this
      omega
    show (c'.catalog.snapshots.insert (c'.snapshotId H) (c'.manifest H)).get? id = some m ↔ _
    rw [get?_insert, hsnapshots, mem_append, mem_singleton]
    split_ifs with hid
    · rw [Option.some.injEq]
      constructor
      · rintro rfl
        exact ⟨.inr rfl, hid⟩
      · rintro ⟨hm | hm, hmid⟩
        · exact absurd (hmid.trans hid.symm) (hnew m hm)
        · exact hm.symm
    · rw [h.snapshots]
      constructor
      · rintro ⟨hm, hmid⟩
        exact ⟨.inl hm, hmid⟩
      · rintro ⟨hm | rfl, hmid⟩
        · exact ⟨hm, hmid⟩
        · exact absurd hmid hid
  revisions m hm p r hr := by
    rcases mem_append.mp hm with hm | hm
    · exact (h.revisions m hm p r hr).trans (hlatest p)
    · rw [mem_singleton.mp hm] at hr
      exact hrevision p r hr

theorem Layered.commit (h : Layered H ts ms)
    (hbased : ∀ b, Leading ms.length b → ∀ path,
      Applied H path (filesAt ms b path) (m.files.get? path) (t.staged path))
    (hfresh : ∀ path p data base nanos, t.staged path = some (.file p data base nanos) →
      ∀ k, m.files.get? path ≠ filesAt ms k path) : Layered H (ts ++ [t]) (ms ++ [m]) where
  length := by rw [length_append, length_append, h.length]; rfl
  based n t' b ht' hb path := by
    rcases Nat.lt_trichotomy n ts.length with hlt | rfl | hgt
    · rw [List.getElem?_append_left hlt] at ht'
      have hms : n + 1 ≤ ms.length := h.length ▸ hlt
      rw [filesAt_concat_of_le hms, filesAt_concat_of_le ((hb.le.trans (Nat.le_succ n)).trans hms)]
      exact h.based n t' b ht' hb path
    · rw [List.getElem?_concat_length] at ht'
      rw [← h.length] at hb ⊢
      rw [filesAt_concat, filesAt_concat_of_le hb.le, ← some.inj ht']
      exact hbased b hb path
    · rw [List.getElem?_eq_none (by simp; omega)] at ht'
      cases ht'
  fresh n t' path p data base nanos ht' hstaged k hk := by
    rcases Nat.lt_trichotomy n ts.length with hlt | rfl | hgt
    · rw [List.getElem?_append_left hlt] at ht'
      have hms : n + 1 ≤ ms.length := h.length ▸ hlt
      rw [filesAt_concat_of_le hms, filesAt_concat_of_le ((hk.trans (Nat.le_succ n)).trans hms)]
      exact h.fresh n t' path p data base nanos ht' hstaged k hk
    · rw [List.getElem?_concat_length] at ht'
      rw [← h.length] at hk ⊢
      rw [filesAt_concat, filesAt_concat_of_le hk]
      rw [← some.inj ht'] at hstaged
      exact hfresh path p data base nanos hstaged k
    · rw [List.getElem?_eq_none (by simp; omega)] at ht'
      cases ht'

theorem Completed.layered (h : Completed H nodeId ts ms e) :
    Catalogued ms e.catalog ∧ Layered H ts ms := by
  induction h with
  | new =>
    refine ⟨⟨rfl, ?_, ?_, ?_⟩, ⟨rfl, ?_, ?_⟩⟩ <;> simp [Engine.new]
  | @commit ts ms e e' t m _ hrun ih =>
    obtain ⟨hcat, hlayered⟩ := ih
    obtain ⟨node, txId, info, ops, c, hplain, hops, rfl, rfl, hcatalog⟩ := Transaction.run_ok hrun
    generalize hstart : start node txId info t.votes t.snapshotTag t.timestamp e.catalog = c0
      at hcatalog ⊢
    obtain ⟨b, hb⟩ := exists_leading ms.length
    have hfiles : ∀ p b, Leading ms.length b → c0.files.get? p = filesAt ms b p := fun p b hb => by
      rw [← hstart]
      exact files_start hcat hb
    have hlatest : c0.catalog.latest = e.catalog.latest := by rw [← hstart]; rfl
    have hold : ∀ p r, c0.files.get? p = some r → r.revisionId ≤ c0.catalog.latest p := by
      intro p r hr
      rw [hfiles p b hb] at hr
      rw [hlatest]
      exact filesAt_revision hcat hr
    refine ⟨?_, hlayered.commit (fun b hb p => ?_) fun p q data base nanos hstaged k heq => ?_⟩
    · rw [hcatalog]
      refine hcat.commit ?_ ?_ (fun p => ?_) fun p r => revision_promoteAll hplain hold
      · rw [promoteAll_currentEpoch, ← hstart]
        rfl
      · rw [promoteAll_snapshots, ← hstart]
        rfl
      · rw [← hlatest]
        exact c0.latest_le_promoteAll ops p
    · rw [← hfiles p b hb]
      exact applied_promoteAll hplain hops
    · -- the new revision is above all that the catalog knows
      have hmem : (p, (file q data base nanos).op H) ∈ ops :=
        (hops _ _).mpr (by rw [hstaged]; rfl)
      obtain ⟨r, hr, hrev, -⟩ := promoteAll_write hplain hmem rfl
      have hle := filesAt_revision hcat (heq.symm.trans hr)
      rw [hrev, hlatest] at hle
      omega

/-! ## The contract -/

def BuildsAt (H : HashFn) (ts : List Transaction) (ms : List GlobalSnapshotManifest) (n : ℕ) : Prop :=
  ∀ t, ts[n]? = some t → ∀ path,
    Applied H path (filesAt ms n path) (filesAt ms (n + 1) path) (t.staged path)

/-- While the manifests build on one another, a path has a file if its last operation is a write. -/
theorem written_iff (h : ∀ k < n, BuildsAt H ts ms k) (hn : n ≤ ts.length) :
    Written ts path n ↔ filesAt ms n path ≠ none := by
  induction n with
  | zero => simp [Written, filesAt]
  | succ n ih =>
    have ht : ts[n]? = some ts[n] := List.getElem?_eq_getElem hn
    have happlied := h n (Nat.lt_succ_self n) _ ht path
    rw [Written, ht, bind_some]
    cases hstaged : ts[n].staged path with
    | none =>
      rw [hstaged] at happlied
      rw [show filesAt ms (n + 1) path = filesAt ms n path from happlied]
      exact ih (fun k hk => h k (hk.trans (Nat.lt_succ_self n))) (Nat.le_of_succ_le hn)
    | some call =>
      rw [hstaged] at happlied
      cases call with
      | file p data base nanos =>
        obtain ⟨r, hr, -⟩ := happlied
        simp [hr]
      | delete p base =>
        rw [show filesAt ms (n + 1) path = none from happlied]
        simp

theorem Applied.of_some {before before' after : Option FileRevision} {call : StageCall}
    (h : Applied H path before after (some call)) : Applied H path before' after (some call) := by
  cases call <;> exact h

theorem Layered.settled (h : Layered H ts ms) (hbuilds : ∀ k, BuildsAt H ts ms k) :
    NothingSkipped ts := by
  intro n t t' ht ht' hn b hb path call hstaged
  by_cases hnext : (t'.staged path).isSome
  · exact .inl hnext
  have hnone : t'.staged path = none := by simpa using hnext
  have hbn : b ≤ n := (hb.of_not_nines hn).le
  have hskip : filesAt ms (n + 2) path = filesAt ms b path := by
    have := h.based (n + 1) t' b ht' hb path
    rwa [hnone] at this
  have hkeep : filesAt ms (n + 2) path = filesAt ms (n + 1) path := by
    have := hbuilds (n + 1) t' ht' path
    rwa [hnone] at this
  have hsame : filesAt ms (n + 1) path = filesAt ms b path := hkeep.symm.trans hskip
  cases call with
  | file p data base nanos =>
    exact absurd hsame (h.fresh n t path p data base nanos ht hstaged b hbn)
  | delete p base =>
    refine .inr ⟨⟨p, base, rfl⟩, ?_⟩
    have hgone := hbuilds n t ht path
    rw [hstaged] at hgone
    have hlen : b ≤ ts.length := hbn.trans (List.getElem?_eq_some_iff.mp ht).1.le
    rw [written_iff (fun k _ => hbuilds k) hlen, not_not, ← hsame]
    exact hgone

theorem Layered.buildsAt (h : Layered H ts ms) (hskip : NothingSkipped ts)
    (hbuilds : ∀ k < n, BuildsAt H ts ms k) : BuildsAt H ts ms n := by
  intro t' ht' path
  by_cases hn : Nines n
  · exact h.based n t' n ht' hn.leading path
  obtain ⟨n, rfl⟩ : ∃ k, n = k + 1 :=
    Nat.exists_eq_succ_of_ne_zero fun hzero => hn (hzero ▸ ⟨0, rfl⟩)
  obtain ⟨b, hb⟩ := exists_leading (n + 1)
  have hb' : Leading n b := hb.of_not_nines hn
  have happlied := h.based (n + 1) t' b ht' hb path
  have hlen : n + 1 < ts.length := (List.getElem?_eq_some_iff.mp ht').1
  have ht : ts[n]? = some (ts.get ⟨n, by omega⟩) := List.getElem?_eq_getElem (by omega)
  have hlast := h.based n _ b ht hb' path
  cases hnext : t'.staged path with
  | some call =>
    rw [hnext] at happlied
    exact happlied.of_some
  | none =>
    rw [hnext] at happlied
    rw [show filesAt ms (n + 2) path = filesAt ms b path from happlied]
    cases hstaged : (ts.get ⟨n, by omega⟩).staged path with
    | none =>
      rw [hstaged] at hlast
      exact hlast.symm
    | some call =>
      rcases hskip n _ t' ht ht' hn b hb path call hstaged with hsome | ⟨⟨p, base, rfl⟩, hwritten⟩
      · rw [hnext] at hsome
        cases hsome
      · have hbefore : ∀ k < b, BuildsAt H ts ms k := fun k hk =>
          hbuilds k (hk.trans_le hb.le)
        rw [written_iff hbefore (hb.le.trans hlen.le), not_not] at hwritten
        rw [hstaged] at hlast
        rw [hwritten]
        exact (show filesAt ms (n + 1) path = none from hlast).symm

/-! ## Transactions that complete -/

theorem Transaction.run_of_free (e : Engine) (hbase : ∀ call ∈ t.stages, call.base = none)
    (hvotes : firstAbort t.votes = none) : ∃ e' m, t.run H e = .ok (e', m) := by
  unfold run
  dsimp only
  generalize hbegin : e.beginTx H t.author t.nanos t.secs t.createdSecs = begun
  obtain ⟨info, hinfo, hid, hstate, hops⟩ : ∃ info, begun.1.metas begun.2 = some info ∧
      info.txId = begun.2 ∧ info.state = .active ∧ info.stagedOps = .empty := by
    rw [← hbegin]
    exact ⟨_, Function.update_self _ _ _, rfl, rfl, rfl⟩
  obtain ⟨e1, hstage, -, hinfo1⟩ : ∃ e1, stageAll H begun.2 t.stages begun.1 = .ok e1 ∧
      e1.catalog = begun.1.catalog ∧ e1.metas begun.2 = some { info with
        stagedOps := stagedOps H t.stages info.stagedOps } := stageAll_active hinfo hid hstate
  rw [hops] at hinfo1
  have hfree : ∀ x ∈ (stagedOps H t.stages .empty).entries, e1.catalog.conflict x.2 = none := by
    intro x hx
    obtain ⟨call, hcall, hop⟩ := map_eq_some_iff.mp ((mem_stagedOps t.stages).mp hx)
    have hmem := mem_reverse.mp (List.mem_of_find?_eq_some hcall)
    rw [SnapshotCatalog.conflict, ← hop, call.op_base, hbase call hmem]
  obtain ⟨prepare, hprepare⟩ := prepare2pc_of_active hinfo1 hstate hfree
  let saved : ActiveTxMeta := { info with
    state := .prepared, stagedOps := stagedOps H t.stages .empty, preparedManifest := some prepare }
  have hprepared : (e1.saveTxMeta saved).metas begun.2 = some saved := metas_saveTxMeta e1 hid
  obtain ⟨e2, m, hcommit⟩ : ∃ e2 m, commit2pc H _ _ _ _ _ _ _ = (e2, .ok m) :=
    commit2pc_of_prepared hprepared rfl hvotes
  rw [hstage]
  dsimp only
  rw [hprepare]
  dsimp only
  rw [hcommit]
  exact ⟨e2, m, rfl⟩

theorem Completed.of_free (H : HashFn) (nodeId : String) (ts : List Transaction)
    (hbase : ∀ t ∈ ts, ∀ call ∈ t.stages, call.base = none)
    (hvotes : ∀ t ∈ ts, firstAbort t.votes = none) : ∃ ms e, Completed H nodeId ts ms e := by
  induction ts using List.reverseRecOn with
  | nil => exact ⟨[], _, .new⟩
  | append_singleton ts t ih =>
    obtain ⟨ms, e, h⟩ := ih (fun t ht => hbase t (mem_append_left _ ht)) fun t ht =>
      hvotes t (mem_append_left _ ht)
    have hlast : t ∈ ts ++ [t] := mem_append_right _ (mem_singleton_self t)
    obtain ⟨e', m, hrun⟩ := t.run_of_free e (hbase t hlast) (hvotes t hlast)
    exact ⟨ms ++ [m], e', .commit h hrun⟩

def Transaction.plain (stages : List StageCall) : Transaction :=
  ⟨none, 0, 0, 0, stages, [], .sorted, [], none, 0, .sorted, .full⟩

def lostWrite : List Transaction :=
  List.replicate 9 (.plain []) ++ [.plain [.file "a" [1] none 0], .plain []]

theorem exists_completed_lostWrite : ∃ ms e, Completed (fun _ => .zero) "n1" lostWrite ms e :=
  Completed.of_free _ _ _ (by decide) (by decide)

/-- The manifests of completed transactions build on one another exactly if nothing is lost where the next
one starts from an older snapshot. -/
theorem builds_iff_nothingSkipped (h : Completed H nodeId ts ms e) :
    Builds H ts ms ↔ NothingSkipped ts := by
  obtain ⟨-, hlayered⟩ := h.layered
  constructor
  · exact fun hbuilds => hlayered.settled hbuilds
  · intro hskip n
    induction n using Nat.strong_induction_on with
    | _ n ih => exact hlayered.buildsAt hskip ih

theorem builds_iff_lostWrite : ∃ ms e, Completed (fun _ => .zero) "n1" lostWrite ms e ∧
    (Builds (fun _ => .zero) lostWrite ms ↔ NothingSkipped lostWrite) := by
  obtain ⟨ms, e, h⟩ := exists_completed_lostWrite
  exact ⟨ms, e, h, builds_iff_nothingSkipped h⟩

/-- The eleventh snapshot starts from the ninth one, and the file of the tenth is lost. -/
theorem not_builds_lostWrite :
    ∃ ms e, Completed (fun _ => .zero) "n1" lostWrite ms e ∧ ¬ Builds (fun _ => .zero) lostWrite ms := by
  obtain ⟨ms, e, h⟩ := exists_completed_lostWrite
  refine ⟨ms, e, h, fun hbuilds => ?_⟩
  have hten : ¬ Nines 10 := by
    rintro ⟨k, hk⟩
    rcases k with _ | k
    · simp at hk
    · omega
  obtain ⟨b, hb⟩ := exists_leading 10
  have hstaged : (Transaction.plain [.file "a" [1] none 0]).staged "a" =
      some (.file "a" [1] none 0) := by decide
  have hsettled := h.layered.2.settled hbuilds 9 _ _ rfl rfl hten b hb "a" _ hstaged
  rcases hsettled with hsome | ⟨⟨p, base, hcall⟩, -⟩
  · exact absurd hsome (by decide)
  · cases hcall

end Velcrux.TxSnapshot
