import Velcrux.Session.Server

/-!
# Crash and recovery

The commit sequence of `server_upload_session_with_limits`, cut off by a crash, and the next start.
The contract: the record then says `Committed` exactly when the destination has the staged content.
-/

namespace Velcrux.Session

open Protocol State Storage Transfer

structure Disk where
  files : FileTable
  store : SqliteStateStore

section

variable (cfg : ServerConfig) (task : Task) (now : ℕ)

def journalRenamed (d : Disk) : Disk :=
  { d with
    store := d.store.writeJournal ⟨task.transferId, 1, task.create.dstPath, .renamed, now⟩ }

def renameStaged (d : Disk) : Option Disk :=
  (d.files.rename (cfg.stagingPath task) (cfg.destPath task)).map fun t => { d with files := t }

def markCommitted (d : Disk) : Disk :=
  { d with store := d.store.markJournalCommitted task.transferId 1 now }

/-- The steps of the commit sequence in their order: the journal entry, the rename, the sync of the
directory (which changes nothing that a reader sees) and the mark in the journal. -/
def commitSequence : List (Disk → Option Disk) :=
  [fun d => some (journalRenamed task now d), renameStaged cfg task, some,
    fun d => some (markCommitted task now d)]

def durable (k : ℕ) (d : Disk) : Option Disk :=
  ((commitSequence cfg task now).take k).foldlM (fun d step => step d) d

end

def recover (now : ℕ) (s : SqliteStateStore) : JournalRecovery → SqliteStateStore
  | .finalize transferId fileId =>
    let s := s.markJournalCommitted transferId fileId now
    match s.getTransfer transferId with
    | .ok r => s.updateTransfer { r with status := .committed }
    | .error _ => s
  | .leavePending transferId _ =>
    match s.getTransfer transferId with
    | .ok r =>
      if r.status = .active then s.updateTransfer { r with status := .resumable } else s
    | .error _ => s

def startUp (now : ℕ) (s : SqliteStateStore) : SqliteStateStore :=
  (s.recoverCommitJournal.foldl (recover now) s).markActiveTransfersResumable now

/-! ## The contract -/

def HasStatus (s : SqliteStateStore) (transferId : TransferId) (status : TransferStatus) : Prop :=
  ∃ r, s.getTransfer transferId = .ok r ∧ r.status = status

def RecoversTruthfully (cfg : ServerConfig) (task : Task) (now k : ℕ) (staged : Bytes)
    (d : Disk) : Prop :=
  (HasStatus (startUp now d.store) task.transferId .committed ↔
    d.files.readAt (cfg.destPath task) = some staged) ∧
  (k < 2 → HasStatus (startUp now d.store) task.transferId .resumable)

def Recoverable (cfg : ServerConfig) (task : Task) (staged : Bytes) (d : Disk) : ℕ → Prop
  | 0 =>
    (HasStatus d.store task.transferId .active ∨ HasStatus d.store task.transferId .resumable) ∧
    (∀ e ∈ d.store.commitJournal, e.transferId = task.transferId → e.status ≠ .renamed) ∧
    d.files.readAt (cfg.destPath task) ≠ some staged
  | 1 => False
  | 2 | 3 => ∃ status, HasStatus d.store task.transferId status
  | _ =>
    HasStatus d.store task.transferId .committed ∨
      (∃ status, HasStatus d.store task.transferId status) ∧
        ∃ e ∈ d.store.commitJournal, e.transferId = task.transferId ∧ e.fileId ≠ 1 ∧
          e.status = .renamed

end Velcrux.Session
