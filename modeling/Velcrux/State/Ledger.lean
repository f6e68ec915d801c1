import Velcrux.State.Store

/-!
# The idempotency ledger

`state/ledger`: what the server remembers of the requests with an idempotency key.
-/

namespace Velcrux.State

inductive ConflictReason where
  | usedForPath (key path received : String)
  | usedForSize (key : String) (size received : ℕ)
  | cancelled (key : String)
  | registeredForPath (key path received : String)
  | registeredForSize (key : String) (size received : ℕ)
  | cancelledInDb (key : String)
deriving DecidableEq

def ConflictReason.text (debug : String → String) : ConflictReason → String
  | .usedForPath key path received =>
    "idempotency key " ++ debug key ++ " already used for path " ++ debug path ++ ", received " ++
      debug received
  | .usedForSize key size received =>
    "idempotency key " ++ debug key ++ " already used for size " ++ toString size ++ ", received " ++
      toString received
  | .cancelled key => "idempotency key " ++ debug key ++ " was previously cancelled"
  | .registeredForPath key path received =>
    "idempotency key " ++ debug key ++ " registered for path " ++ debug path ++ ", received " ++
      debug received
  | .registeredForSize key size received =>
    "idempotency key " ++ debug key ++ " registered for size " ++ toString size ++ ", received " ++
      toString received
  | .cancelledInDb key =>
    "idempotency key " ++ debug key ++ " was previously cancelled in state DB"

inductive IdempotencyAction where
  | proceedNew (transferId : TransferId)
  | replayActive (transferId : TransferId)
  | replayCommitted (transferId : TransferId) (files : ℕ)
  | resumeExisting (transferId : TransferId) (bytesCompleted : ℕ)
  | conflict (reason : ConflictReason)
deriving DecidableEq

structure LedgerEntry where
  transferId : TransferId
  remotePath : String
  expectedSize : ℕ
  status : TransferStatus
  committedFiles : Option ℕ
deriving DecidableEq

structure IdempotencyLedger where
  entries : Role → String → Option LedgerEntry

namespace IdempotencyLedger

def new : IdempotencyLedger := ⟨fun _ _ => none⟩

variable (l : IdempotencyLedger) (role : Role) (key : String)

def insert (e : LedgerEntry) : IdempotencyLedger :=
  ⟨fun r k => if r = role ∧ k = key then some e else l.entries r k⟩

/-- A request is compared with the entry by path and size only. -/
def evaluateEntry (key path : String) (size : ℕ) (e : LedgerEntry) : IdempotencyAction :=
  if e.remotePath ≠ path then .conflict (.usedForPath key e.remotePath path)
  else if e.expectedSize ≠ size then .conflict (.usedForSize key e.expectedSize size)
  else
    match e.status with
    | .active => .replayActive e.transferId
    | .committed => .replayCommitted e.transferId (e.committedFiles.getD 1)
    | .resumable => .resumeExisting e.transferId 0
    | .cancelled => .conflict (.cancelled key)

def cached (path : String) (size : ℕ) (r : TransferRecord) : LedgerEntry where
  transferId := r.transferId
  remotePath := path
  expectedSize := size
  status := r.status
  committedFiles := if r.status = .committed then some 1 else none

def evaluateRecord (r : TransferRecord) : IdempotencyAction :=
  match r.status with
  | .active => .replayActive r.transferId
  | .committed => .replayCommitted r.transferId 1
  | .resumable => .resumeExisting r.transferId r.bytesCompleted
  | .cancelled => .conflict (.cancelledInDb key)

def evaluateTransferCreate (key path : String) (size : ℕ)
    (store : Option SqliteStateStore) (newId : TransferId) :
    IdempotencyAction × IdempotencyLedger :=
  match l.entries role key with
  | some e => (evaluateEntry key path size e, l)
  | none =>
    match store.bind fun s => (s.getTransferByIdempotency role key).toOption with
    | some r =>
      if r.remotePath ≠ path then (.conflict (.registeredForPath key r.remotePath path), l)
      else if r.fileSize ≠ size then (.conflict (.registeredForSize key r.fileSize size), l)
      else (evaluateRecord key r, l.insert role key (cached path size r))
    | none => (.proceedNew newId, l.insert role key ⟨newId, path, size, .active, none⟩)

def modify (f : LedgerEntry → LedgerEntry) : IdempotencyLedger :=
  ⟨fun r k => if r = role ∧ k = key then (l.entries r k).map f else l.entries r k⟩

def markCommitted (files : ℕ) : IdempotencyLedger :=
  l.modify role key fun e => { e with status := .committed, committedFiles := some files }

def markResumable : IdempotencyLedger :=
  l.modify role key fun e => { e with status := .resumable }

def markCancelled : IdempotencyLedger :=
  l.modify role key fun e => { e with status := .cancelled }

end IdempotencyLedger

end Velcrux.State
