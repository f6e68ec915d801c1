import Velcrux.Foundations.Transition
import Velcrux.State.Ledger

/-!
# Concurrent creations under one key

The calls with one role and idempotency key, cut into the sections that hold a lock: reading the
ledger, asking the state store, and writing the ledger.
-/

namespace Velcrux.State

open IdempotencyLedger

structure CreateRequest where
  path : String
  size : ℕ
  hash : Hash
deriving DecidableEq

inductive CallStage where
  | missed
  | known (r : TransferRecord)
  | fresh
deriving DecidableEq

structure KeyState where
  entry : Option LedgerEntry
  record : Option TransferRecord
  calls : List (CreateRequest × CallStage)
  answers : List (CreateRequest × IdempotencyAction)

/-- A section of a call, or what else happens to entry and record: a store that cannot be `read` has no
record for the call, `save` is what the server writes to the store, and a restart loses the ledger and
the calls. -/
inductive KeyEvent where
  | look (req : CreateRequest)
  | query (req : CreateRequest) (read : Bool)
  | write (req : CreateRequest) (stage : CallStage) (newId : TransferId)
  | markCommitted (files : ℕ)
  | markResumable
  | markCancelled
  | save (record : Option TransferRecord)
  | restart

def KeyState.step (key : String) (w : KeyState) : KeyEvent → Option KeyState
  | .look req =>
    match w.entry with
    | some e => some { w with
        answers := (req, evaluateEntry key req.path req.size e) :: w.answers }
    | none => some { w with calls := (req, .missed) :: w.calls }
  | .query req read =>
    if (req, .missed) ∈ w.calls then
      let calls := w.calls.erase (req, .missed)
      match if read then w.record else none with
      | none => some { w with calls := (req, .fresh) :: calls }
      | some r =>
        if r.remotePath ≠ req.path then some { w with
          calls := calls
          answers := (req, .conflict (.registeredForPath key r.remotePath req.path)) :: w.answers }
        else if r.fileSize ≠ req.size then some { w with
          calls := calls
          answers := (req, .conflict (.registeredForSize key r.fileSize req.size)) :: w.answers }
        else some { w with calls := (req, .known r) :: calls }
    else none
  | .write req stage newId =>
    if (req, stage) ∈ w.calls then
      let calls := w.calls.erase (req, stage)
      match stage with
      | .missed => none
      | .known r => some { w with
          calls := calls
          entry := some (cached req.path req.size r)
          answers := (req, evaluateRecord key r) :: w.answers }
      | .fresh => some { w with
          calls := calls
          entry := some ⟨newId, req.path, req.size, .active, none⟩
          answers := (req, .proceedNew newId) :: w.answers }
    else none
  | .markCommitted files => some { w with
      entry := w.entry.map fun e => { e with status := .committed, committedFiles := some files } }
  | .markResumable => some { w with entry := w.entry.map fun e => { e with status := .resumable } }
  | .markCancelled => some { w with entry := w.entry.map fun e => { e with status := .cancelled } }
  | .save record => some { w with record := record }
  | .restart => some { w with entry := none, calls := [] }

def IdempotencyAction.transferId? : IdempotencyAction → Option TransferId
  | .proceedNew id | .replayActive id | .replayCommitted id _ | .resumeExisting id _ => some id
  | .conflict _ => none

def Replays (req : CreateRequest) (id : TransferId) (x : CreateRequest × IdempotencyAction) : Prop :=
  (∀ id', x.2 ≠ .proceedNew id') ∧ (x.1 = req → x.2.transferId? = some id) ∧
    (x.1 ≠ req → ∃ reason, x.2 = .conflict reason)

def CreatedOnce (answers : List (CreateRequest × IdempotencyAction)) : Prop :=
  answers.Pairwise fun x y =>
    (∀ id, x.2 = .proceedNew id → Replays x.1 id y) ∧ (∀ id, y.2 = .proceedNew id → Replays y.1 id x)

def LedgerEntry.IsFor (e : LedgerEntry) (id : TransferId) (path : String) (size : ℕ) : Prop :=
  e.transferId = id ∧ e.remotePath = path ∧ e.expectedSize = size ∧ e.status ≠ .cancelled

def TransferRecord.IsFor (r : TransferRecord) (id : TransferId) (path : String) (size : ℕ) : Prop :=
  r.transferId = id ∧ r.remotePath = path ∧ r.fileSize = size ∧ r.status ≠ .cancelled

/-- Calls do not overlap, a path and a size come with one hash, a record in the store is read, the store
keeps the record and gets none but that of the entry, the entry is in the store before a restart, and
nothing is cancelled. -/
def InTurn (w : KeyState) : KeyEvent → Prop
  | .look req => w.calls = [] ∧ ∀ x ∈ w.answers, ∀ id, x.2 = .proceedNew id → x.1.path = req.path →
      x.1.size = req.size → x.1.hash = req.hash
  | .query _ read => read = true ∨ w.record = none
  | .save record =>
    (∀ r, w.record = some r → ∃ r', record = some r' ∧
      ∀ id path size, r.IsFor id path size → r'.IsFor id path size) ∧
    (w.record = none → ∀ r', record = some r' →
      ∃ e, w.entry = some e ∧ r'.IsFor e.transferId e.remotePath e.expectedSize)
  | .restart => w.entry ≠ none → w.record ≠ none
  | .markCancelled => False
  | _ => True

def KeyRun (key : String) (ok : KeyState → KeyEvent → Prop) : List (KeyState × KeyEvent) → KeyState → Prop :=
  Transition.Run (KeyState.step key) ok fun w => w.entry = none ∧ w.calls = [] ∧ w.answers = []

end Velcrux.State
