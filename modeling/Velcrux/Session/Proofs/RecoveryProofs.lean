import Velcrux.Session.Recovery
import Velcrux.Session.Proofs.CommittingProofs

/-!
# Recovery finds out the truth at two of four points

What the start-up does depends on the row of a transfer and on whether a journal row of it says
`renamed`. The journal says so one step too early, and `committed` is not looked at.
-/

variable (s : SqliteStateStore)

namespace Velcrux.State.SqliteStateStore

variable {s : SqliteStateStore} {transferId : TransferId}

def status? (transferId : TransferId) : Option TransferStatus :=
  (s.getTransfer transferId).toOption.map (·.status)

def saysRenamed (transferId : TransferId) : Bool :=
  s.commitJournal.any fun e => e.transferId = transferId ∧ e.status = .renamed

theorem status?_eq_find (transferId : TransferId) : s.status? transferId =
      (s.transfers.find? fun r => r.transferId = transferId).map (·.status) := by
  unfold status? getTransfer
  split <;> simp_all [Except.toOption]

theorem status?_of_transfers {s' : SqliteStateStore} (h : s'.transfers = s.transfers) :
    s'.status? transferId = s.status? transferId := by
  rw [status?_eq_find, status?_eq_find, h]

theorem status?_of_map {s' : SqliteStateStore} {f : TransferRecord → TransferRecord}
    (h : s'.transfers = s.transfers.map f) (hid : ∀ r, (f r).transferId = r.transferId) :
    s'.status? transferId =
      (s.transfers.find? fun r => r.transferId = transferId).map fun r => (f r).status := by
  have hcomp : ((fun r : TransferRecord => decide (r.transferId = transferId)) ∘ f) =
      fun r => decide (r.transferId = transferId) := by
    funext r
    simp [hid]
  rw [status?_eq_find, h, List.find?_map, hcomp, Option.map_map]
  rfl

theorem hasTransfer_iff : s.hasTransfer transferId = true ↔ (s.status? transferId).isSome = true := by
  rw [status?_eq_find, Option.isSome_map, List.find?_isSome, hasTransfer, List.any_eq_true]

theorem status?_updateTransfer {r : TransferRecord} {status : TransferStatus} {id : TransferId}
    (hr : s.getTransfer id = .ok r) :
    (s.updateTransfer { r with status := status }).status? transferId =
      if id = transferId then some status else s.status? transferId := by
  have hfind : s.transfers.find? (fun r => r.transferId = id) = some r := by
    unfold getTransfer at hr
    split at hr
    · simp_all
    · cases hr
  obtain rfl : r.transferId = id := by simpa using List.find?_some hfind
  rw [status?_of_map rfl fun e => by split_ifs with h <;> simp [h]]
  split_ifs with h
  · subst h
    simp [hfind]
  · rw [status?_eq_find]
    -- the rows of another transfer are left alone
    refine Option.map_congr fun e he => ?_
    have : e.transferId = transferId := by simpa using List.find?_some he
    rw [if_neg]
    rw [this]
    exact fun h' => h h'.symm

theorem status?_markActive (now : ℕ) :
    (s.markActiveTransfersResumable now).status? transferId =
      (s.status? transferId).map fun st => if st = .active then .resumable else st := by
  rw [status?_of_map rfl fun e => by split_ifs <;> rfl, status?_eq_find, Option.map_map]
  refine Option.map_congr fun e _ => ?_
  simp only [Function.comp]
  split_ifs <;> rfl

end Velcrux.State.SqliteStateStore

namespace Velcrux.Session

open Protocol State Storage Transfer Transition SqliteStateStore Option

variable {cfg : ServerConfig} {task : Task} {now k inode : ℕ} {d d' : Disk} {s : SqliteStateStore}
  {transferId : TransferId}

theorem hasStatus_iff {status : TransferStatus} :
    HasStatus s transferId status ↔ s.status? transferId = some status := by
  unfold HasStatus status?
  cases s.getTransfer transferId <;> simp [Except.toOption]

/-! ## Start-up -/

def actionStatus (transferId : TransferId) (status : TransferStatus) : JournalRecovery → TransferStatus
  | .finalize id _ => if id = transferId then .committed else status
  | .leavePending id _ => if id = transferId ∧ status = .active then .resumable else status

theorem status?_recover (a : JournalRecovery) :
    (recover now s a).status? transferId =
      (s.status? transferId).map fun st => actionStatus transferId st a := by
  cases a with
  | finalize id fileId =>
    have hmark : (s.markJournalCommitted id fileId now).status? transferId = s.status? transferId :=
      status?_of_transfers rfl
    simp only [recover, actionStatus]
    cases hr : (s.markJournalCommitted id fileId now).getTransfer id with
    | ok r =>
      simp only [status?_updateTransfer hr, hmark]
      split_ifs with h
      · subst h
        have : s.status? id = some r.status := by
          rw [← hmark, status?, hr]
          rfl
        simp [this]
      · simp
    | error e =>
      simp only [hmark]
      split_ifs with h
      · subst h
        have : s.status? id = none := by
          rw [← hmark, status?, hr]
          rfl
        simp [this]
      · simp
  | leavePending id fileId =>
    simp only [recover, actionStatus]
    cases hr : s.getTransfer id with
    | ok r =>
      have hst : s.status? id = some r.status := by
        rw [status?, hr]
        rfl
      dsimp only
      split_ifs with hactive
      · rw [status?_updateTransfer hr]
        split_ifs with h
        · subst h
          simp [hst, hactive]
        · simp [h]
      · by_cases h : id = transferId
        · subst h
          simp [hst, hactive]
        · simp [h]
    | error e =>
      by_cases h : id = transferId
      · subst h
        have : s.status? id = none := by
          rw [status?, hr]
          rfl
        simp [this]
      · simp [h]

theorem status?_foldl_recover (actions : List JournalRecovery) :
    (actions.foldl (recover now) s).status? transferId =
      (s.status? transferId).map fun st => actions.foldl (actionStatus transferId) st := by
  induction actions generalizing s with
  | nil => simp
  | cons a actions ih =>
    rw [List.foldl_cons, ih, status?_recover, map_map]
    rfl

def finalizes (transferId : TransferId) : JournalRecovery → Bool
  | .finalize id _ => id = transferId
  | .leavePending _ _ => false

def settled (status : TransferStatus) : TransferStatus :=
  if status = .active then .resumable else status

theorem settled_foldl_actionStatus (actions : List JournalRecovery) (status : TransferStatus) :
    settled (actions.foldl (actionStatus transferId) status) =
      if actions.any (finalizes transferId) then .committed else settled status := by
  induction actions generalizing status with
  | nil => rfl
  | cons a actions ih =>
    rw [List.foldl_cons, ih]
    cases a with
    | finalize id fileId =>
      by_cases h : id = transferId <;> simp [actionStatus, finalizes, settled, h]
    | leavePending id fileId =>
      have hsettled : settled (actionStatus transferId status (.leavePending id fileId)) =
          settled status := by
        simp only [actionStatus]
        split_ifs with h
        · simp [settled, h.2]
        · rfl
      simp [finalizes, hsettled]

theorem any_finalizes :
    s.recoverCommitJournal.any (finalizes transferId) = s.saysRenamed transferId := by
  unfold recoverCommitJournal pendingJournal saysRenamed
  rw [List.any_map, List.any_filter]
  congr 1
  funext e
  cases h : e.status <;> simp [finalizes, h]

/-- **Start-up**: a transfer with a journal row that says `renamed` is committed, one that was active
is resumable. -/
theorem status?_startUp :
    (startUp now s).status? transferId = (s.status? transferId).map fun st =>
      if s.saysRenamed transferId then .committed else settled st := by
  rw [startUp, status?_markActive, status?_foldl_recover, map_map]
  refine map_congr fun st _ => ?_
  rw [← any_finalizes, ← settled_foldl_actionStatus]
  rfl

theorem saysRenamed_journalRenamed (hr : (d.store.status? task.transferId).isSome = true) :
    (journalRenamed task now d).store.saysRenamed task.transferId = true := by
  unfold journalRenamed writeJournal saysRenamed
  rw [if_pos (hasTransfer_iff.mpr hr)]
  split_ifs with hany
  · obtain ⟨e, he, hid⟩ := List.any_eq_true.mp hany
    rw [List.any_map]
    refine List.any_eq_true.mpr ⟨e, he, ?_⟩
    simp only [decide_eq_true_eq] at hid
    simp [hid]
  · simp

theorem status?_journalRenamed (task : Task) (now : ℕ) (d : Disk) :
    (journalRenamed task now d).store.status? transferId = d.store.status? transferId := by
  unfold journalRenamed writeJournal
  split_ifs <;> rfl

theorem saysRenamed_markCommitted :
    (markCommitted task now (journalRenamed task now d)).store.saysRenamed task.transferId =
      d.store.commitJournal.any fun e =>
        e.transferId = task.transferId ∧ e.fileId ≠ 1 ∧ e.status = .renamed := by
  have hmark : ∀ rows : List CommitJournalEntry,
      (rows.map fun e => if e.transferId = task.transferId ∧ e.fileId = 1 then
          { e with status := .committed, updatedMs := now } else e).any (fun e =>
        decide (e.transferId = task.transferId ∧ e.status = .renamed)) =
      rows.any fun e => e.transferId = task.transferId ∧ e.fileId ≠ 1 ∧ e.status = .renamed := by
    intro rows
    rw [List.any_map]
    congr 1
    funext e
    simp only [Function.comp]
    split_ifs with h
    · simp [h]
    · by_cases hid : e.transferId = task.transferId <;> simp_all
  unfold markCommitted markJournalCommitted saysRenamed
  rw [hmark]
  unfold journalRenamed writeJournal
  split_ifs with hrec hany
  · rw [List.any_map]
    congr 1
    funext e
    simp only [Function.comp]
    split_ifs with h
    · simp [h]
    · rfl
  · simp
  · rfl

theorem readAt_renameStaged (hstaged : d.files.names (cfg.stagingPath task) = some (.file inode))
    (h : renameStaged cfg task (journalRenamed task now d) = some d') :
    d'.store = (journalRenamed task now d).store ∧
      d'.files.readAt (cfg.destPath task) = some (d.files.content inode) := by
  obtain ⟨t, ht, rfl⟩ := map_eq_some_iff.mp h
  obtain ⟨node, hnode, rfl⟩ := map_eq_some_iff.mp ht
  obtain rfl : Node.file inode = node := by simpa [journalRenamed, hstaged] using hnode
  rw [FileTable.readAt, FileTable.fileAt_of_file (by simp; rfl)]
  simp [journalRenamed]

/-! ## The crash points -/

theorem committed_startUp_iff : HasStatus (startUp now s) transferId .committed ↔
    ∃ st, s.status? transferId = some st ∧ (s.saysRenamed transferId = true ∨ st = .committed) := by
  rw [hasStatus_iff, status?_startUp, map_eq_some_iff]
  refine exists_congr fun st => and_congr_right fun _ => ?_
  cases s.saysRenamed transferId <;> cases st <;> simp [settled]

theorem resumable_startUp_iff : HasStatus (startUp now s) transferId .resumable ↔
    s.saysRenamed transferId = false ∧
      (HasStatus s transferId .active ∨ HasStatus s transferId .resumable) := by
  simp only [hasStatus_iff]
  rw [status?_startUp, map_eq_some_iff]
  constructor
  · rintro ⟨st, hst, h⟩
    cases hr : s.saysRenamed transferId <;> cases st <;> simp_all [settled]
  · rintro ⟨hr, hst | hst⟩
    · exact ⟨_, hst, by simp [hr, settled]⟩
    · exact ⟨_, hst, by simp [hr, settled]⟩

theorem saysRenamed_eq_false_iff : s.saysRenamed transferId = false ↔
    ∀ e ∈ s.commitJournal, e.transferId = transferId → e.status ≠ .renamed := by
  simp [saysRenamed]

theorem recoversTruthfully_start (later : ℕ) (staged : Bytes) :
    RecoversTruthfully cfg task later 0 staged d ↔ Recoverable cfg task staged d 0 := by
  have hmissed : HasStatus (startUp later d.store) task.transferId .resumable →
      ¬ HasStatus (startUp later d.store) task.transferId .committed := by
    rw [hasStatus_iff, hasStatus_iff]
    intro hres hcom
    exact absurd (hres.symm.trans hcom) (by simp)
  unfold RecoversTruthfully Recoverable
  rw [← saysRenamed_eq_false_iff]
  constructor
  · rintro ⟨htruth, hres⟩
    have hres := hres (by omega)
    obtain ⟨hrow, hstatus⟩ := resumable_startUp_iff.mp hres
    exact ⟨hstatus, hrow, fun hread => hmissed hres (htruth.mpr hread)⟩
  · rintro ⟨hstatus, hrow, hread⟩
    have hres : HasStatus (startUp later d.store) task.transferId .resumable :=
      resumable_startUp_iff.mpr ⟨hrow, hstatus⟩
    exact ⟨⟨fun hcom => absurd hcom (hmissed hres), fun h => absurd h hread⟩, fun _ => hres⟩

theorem recoversTruthfully_renamed {later : ℕ} {staged : Bytes} (hk : 2 ≤ k)
    (hread : d.files.readAt (cfg.destPath task) = some staged) :
    RecoversTruthfully cfg task later k staged d ↔
      HasStatus (startUp later d.store) task.transferId .committed := by
  constructor
  · intro h
    exact h.1.mpr hread
  · intro h
    exact ⟨⟨fun _ => hread, fun _ => h⟩, fun hlt => absurd hlt (by omega)⟩

/-- **Crash recovery of a commit**: for every state of the disk and every point of the crash, the
recovery is right exactly under `Recoverable`. -/
theorem recoversTruthfully_iff {later : ℕ}
    (hstaged : d.files.names (cfg.stagingPath task) = some (.file inode))
    (hcrash : durable cfg task now k d = some d') :
    RecoversTruthfully cfg task later k (d.files.content inode) d' ↔
      Recoverable cfg task (d.files.content inode) d k := by
  have hjournaled : (∃ st, (journalRenamed task now d).store.status? task.transferId = some st ∧
      ((journalRenamed task now d).store.saysRenamed task.transferId = true ∨ st = .committed)) ↔
      ∃ st, HasStatus d.store task.transferId st := by
    simp only [status?_journalRenamed, hasStatus_iff]
    refine exists_congr fun st => and_iff_left_of_imp fun hst => .inl ?_
    exact saysRenamed_journalRenamed (by simp [hst])
  match k with
  | 0 =>
    obtain rfl : d = d' := by simpa [durable] using hcrash
    exact recoversTruthfully_start later _
  | 1 =>
    obtain rfl : journalRenamed task now d = d' := by
      simpa [durable, commitSequence] using hcrash
    -- with a record the journal says `renamed`, without one nothing is resumable
    refine iff_of_false (fun h => ?_) id
    obtain ⟨hrow, hstatus⟩ := resumable_startUp_iff.mp (h.2 (by omega))
    have hsome : (d.store.status? task.transferId).isSome = true := by
      rcases hstatus with h | h <;> rw [hasStatus_iff, status?_journalRenamed] at h <;> simp [h]
    rw [saysRenamed_journalRenamed hsome] at hrow
    cases hrow
  | 2 | 3 =>
    have hren : renameStaged cfg task (journalRenamed task now d) = some d' := by
      simpa [durable, commitSequence] using hcrash
    obtain ⟨hstore, hread⟩ := readAt_renameStaged hstaged hren
    rw [recoversTruthfully_renamed (by omega) hread, committed_startUp_iff, hstore]
    exact hjournaled
  | k + 4 =>
    obtain ⟨d1, hren, rfl⟩ : ∃ d1, renameStaged cfg task (journalRenamed task now d) = some d1 ∧
        markCommitted task now d1 = d' := by
      simpa [durable, commitSequence, bind_eq_some_iff] using hcrash
    obtain ⟨hstore, hread⟩ := readAt_renameStaged hstaged hren
    have hrows : (markCommitted task now d1).store.saysRenamed task.transferId = true ↔
        ∃ e ∈ d.store.commitJournal, e.transferId = task.transferId ∧ e.fileId ≠ 1 ∧
          e.status = .renamed := by
      have hsame : (markCommitted task now d1).store =
          (markCommitted task now (journalRenamed task now d)).store := by
        rw [markCommitted, hstore]
        rfl
      rw [hsame, saysRenamed_markCommitted]
      simp
    have hstatus : (markCommitted task now d1).store.status? task.transferId =
        d.store.status? task.transferId := by
      rw [← status?_journalRenamed task now d, ← hstore]
      exact status?_of_transfers rfl
    rw [recoversTruthfully_renamed (d := markCommitted task now d1) (by omega) hread,
      committed_startUp_iff, hstatus]
    simp only [hrows, Recoverable, hasStatus_iff]
    constructor
    · rintro ⟨st, hst, hrow | rfl⟩
      · exact .inr ⟨⟨st, hst⟩, hrow⟩
      · exact .inl hst
    · rintro (hst | ⟨⟨st, hst⟩, hrow⟩)
      · exact ⟨_, hst, .inr rfl⟩
      · exact ⟨st, hst, .inl hrow⟩

def verifiedOne : Option (World × Task × SqliteStateStore) :=
  (exec (step plainConfig firstByte) (fun _ _ => true) [] emptyServer
    (openOne 0 ++ verifyOne 0)).bind fun r =>
      (r.2.tasks 0).bind fun task => r.2.store.map fun s => (r.2, task, s)

theorem recoversTruthfully_renamed_one :
    ∃ w task s d', verifiedOne = some (w, task, s) ∧
      durable plainConfig task 0 2 ⟨w.files, s⟩ = some d' ∧
      Recoverable plainConfig task [1] ⟨w.files, s⟩ 2 ∧
      RecoversTruthfully plainConfig task 0 2 [1] d' := by
  have hex : (verifiedOne.any fun x =>
      (durable plainConfig x.2.1 0 2 ⟨x.1.files, x.2.2⟩).isSome &&
      decide (x.1.files.names (plainConfig.stagingPath x.2.1) = some (.file 0)) &&
      decide (x.1.files.content 0 = [1]) &&
      decide (x.2.2.status? x.2.1.transferId = some .active)) = true := by decide
  obtain ⟨⟨w, task, s⟩, hone, hall⟩ := (any_eq_true _ _).mp hex
  simp only [Bool.and_eq_true, decide_eq_true_eq] at hall
  obtain ⟨⟨⟨hsome, hstaged⟩, hcontent⟩, hstatus⟩ := hall
  obtain ⟨d', hd'⟩ := isSome_iff_exists.mp hsome
  have hrec : Recoverable plainConfig task [1] ⟨w.files, s⟩ 2 := ⟨_, hasStatus_iff.mpr hstatus⟩
  refine ⟨w, task, s, d', hone, hd', hrec, ?_⟩
  rw [← hcontent] at hrec ⊢
  exact (recoversTruthfully_iff hstaged hd').mpr hrec

/-- The journal entry is durable and the rename is not: the record says `Committed` and there is no
file. -/
theorem not_recoversTruthfully_journaled :
    ∃ w task s d', verifiedOne = some (w, task, s) ∧
      w.files.readAt (plainConfig.stagingPath task) = some [1] ∧
      durable plainConfig task 0 1 ⟨w.files, s⟩ = some d' ∧
      HasStatus (startUp 0 d'.store) task.transferId .committed ∧
      d'.files.readAt (plainConfig.destPath task) = none ∧
      ¬ RecoversTruthfully plainConfig task 0 1 [1] d' := by
  have hex : (verifiedOne.any fun x =>
      decide (x.1.files.readAt (plainConfig.stagingPath x.2.1) = some [1]) &&
      (durable plainConfig x.2.1 0 1 ⟨x.1.files, x.2.2⟩).any fun d' =>
        decide ((startUp 0 d'.store).status? x.2.1.transferId = some .committed) &&
        decide (d'.files.readAt (plainConfig.destPath x.2.1) = none)) = true := by decide
  obtain ⟨⟨w, task, s⟩, hone, hall⟩ := (any_eq_true _ _).mp hex
  simp only [Bool.and_eq_true, decide_eq_true_eq] at hall
  obtain ⟨d', hd', hall'⟩ := (any_eq_true _ _).mp hall.2
  simp only [Bool.and_eq_true, decide_eq_true_eq] at hall'
  have hcom := hasStatus_iff.mpr hall'.1
  refine ⟨w, task, s, d', hone, hall.1, hd', hcom, hall'.2, ?_⟩
  intro h
  exact absurd (h.1.mp hcom) (by simp [hall'.2])

end Velcrux.Session
