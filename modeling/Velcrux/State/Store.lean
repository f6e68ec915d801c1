import Velcrux.State.Bitmap

/-!
# The state store

`state/mod` and `SqliteStateStore`: the tables and the statements that are run against them. Every
operation holds the connection's lock, so it takes effect at once. `now` is the wall clock
(`current_ms`).
-/

namespace Velcrux.State

inductive Role where
  | client
  | server
deriving DecidableEq

inductive TransferStatus where
  | active
  | cancelled
  | committed
  | resumable
deriving DecidableEq

def TransferStatus.name : TransferStatus → String
  | .active => "active"
  | .cancelled => "cancelled"
  | .committed => "committed"
  | .resumable => "resumable"

inductive Direction where
  | upload
  | download
deriving DecidableEq

def Direction.name : Direction → String
  | .upload => "upload"
  | .download => "download"

structure TransferRecord where
  transferId : TransferId
  idempotencyKey : String
  role : Role
  direction : Direction
  status : TransferStatus
  remotePath : String
  localPath : String
  fileSize : ℕ
  fileHash : Hash
  verifiedUpTo : ℕ
  lastCheckpointMs : ℕ
  bytesCompleted : ℕ
  stagingRelpath : String
  createdMs : ℕ
  updatedMs : ℕ
deriving DecidableEq

inductive CommitStatus where
  | pending
  | renamed
  | committed
deriving DecidableEq

structure CommitJournalEntry where
  transferId : TransferId
  fileId : ℕ
  remotePath : String
  status : CommitStatus
  updatedMs : ℕ
deriving DecidableEq

inductive StateStoreError where
  | notFound
  | idempotencyConflict (key : String) (usedBy : TransferId)
  | database
deriving DecidableEq

inductive JournalRecovery where
  | finalize (transferId : TransferId) (fileId : ℕ)
  | leavePending (transferId : TransferId) (fileId : ℕ)
deriving DecidableEq

inductive UpsertOutcome where
  | inserted
  | reused (record : TransferRecord)
deriving DecidableEq

structure SqliteStateStore where
  transfers : List TransferRecord
  chunkBitmap : TransferId → Finset ℕ
  commitJournal : List CommitJournalEntry

namespace SqliteStateStore

def empty : SqliteStateStore := ⟨[], fun _ => ∅, []⟩

variable (s : SqliteStateStore) (transferId : TransferId)

def getTransfer : Except StateStoreError TransferRecord :=
  match s.transfers.find? fun r => r.transferId = transferId with
  | some r => .ok r
  | none => .error .notFound

def getTransferByIdempotency (role : Role) (key : String) : Except StateStoreError TransferRecord :=
  match s.transfers.find? fun r => r.role = role ∧ r.idempotencyKey = key with
  | some r => .ok r
  | none => .error .notFound

def compatible (e r : TransferRecord) : Bool :=
  e.role = r.role ∧ e.direction = r.direction ∧ e.remotePath = r.remotePath ∧
    e.localPath = r.localPath ∧ e.fileSize = r.fileSize ∧ e.fileHash = r.fileHash

def upsertTransfer (r : TransferRecord) : Except StateStoreError UpsertOutcome × SqliteStateStore :=
  match s.getTransferByIdempotency r.role r.idempotencyKey with
  | .ok e =>
    if compatible e r then (.ok (.reused e), s)
    else (.error (.idempotencyConflict r.idempotencyKey e.transferId), s)
  | .error _ =>
    if s.transfers.any fun e => e.transferId = r.transferId then (.error .database, s)
    else (.ok .inserted, { s with transfers := s.transfers ++ [r] })

def updateTransfer (r : TransferRecord) : SqliteStateStore :=
  { s with transfers := s.transfers.map fun e => if e.transferId = r.transferId then r else e }

def hasTransfer : Bool :=
  s.transfers.any fun r => r.transferId = transferId

def writeBitmap (bitmap : ChunkBitmap) (now : ℕ) : SqliteStateStore :=
  if bitmap.set = ∅ ∨ s.hasTransfer transferId then
    { s with
      chunkBitmap := fun t => if t = transferId then bitmap.set else s.chunkBitmap t
      transfers := s.transfers.map fun r =>
        if r.transferId = transferId then
          { r with bytesCompleted := bitmap.bytesCompleted, updatedMs := now }
        else r }
  else s

def readBitmap : Except StateStoreError ChunkBitmap :=
  match s.getTransfer transferId with
  | .ok r => .ok ⟨s.chunkBitmap transferId, r.bytesCompleted⟩
  | .error e => .error e

def writeJournal (e : CommitJournalEntry) : SqliteStateStore :=
  if s.hasTransfer e.transferId then
    if s.commitJournal.any fun j => j.transferId = e.transferId ∧ j.fileId = e.fileId then
      { s with
        commitJournal := s.commitJournal.map fun j =>
          if j.transferId = e.transferId ∧ j.fileId = e.fileId then e else j }
    else { s with commitJournal := s.commitJournal ++ [e] }
  else s

def pendingJournal : List CommitJournalEntry :=
  s.commitJournal.filter fun e => e.status ≠ .committed

def markJournalCommitted (fileId : ℕ) (now : ℕ) : SqliteStateStore :=
  { s with
    commitJournal := s.commitJournal.map fun e =>
      if e.transferId = transferId ∧ e.fileId = fileId then
        { e with status := .committed, updatedMs := now }
      else e }

def recoverCommitJournal : List JournalRecovery :=
  s.pendingJournal.map fun e =>
    match e.status with
    | .renamed => .finalize e.transferId e.fileId
    | _ => .leavePending e.transferId e.fileId

def markActiveTransfersResumable (now : ℕ) : SqliteStateStore :=
  { s with
    transfers := s.transfers.map fun r =>
      if r.status = .active then { r with status := .resumable, updatedMs := now } else r }

end SqliteStateStore

end Velcrux.State
