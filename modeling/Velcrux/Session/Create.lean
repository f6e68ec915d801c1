import Velcrux.Auth.Authorizer
import Velcrux.Protocol.Message
import Velcrux.State.Ledger
import Velcrux.Wire.Handshake

/-!
# Admission of a TRANSFER_CREATE

The part of `handle_transfer_create` that decides whether a request is carried out.
-/

namespace Velcrux.Session

open Protocol State
open Auth (Op)

/-- The code and the detail that a request is refused with, before `ErrorMsg::new` cuts the detail. -/
structure Refusal where
  code : Wire.ErrorCode
  detail : String
deriving DecidableEq

def Refusal.notFound : Refusal := ⟨.fileNotFound, "not found"⟩

inductive Answer where
  | error (e : Refusal)
  | committed (transferId : TransferId) (files : ℕ)
deriving DecidableEq

def conflictError (debug : String → String) (reason : ConflictReason) : Refusal :=
  ⟨.protocolViolation, "idempotency conflict: " ++ reason.text debug⟩

structure Gatekeeper where
  deletion : Option Refusal
  grants : Op → String → Bool

section

variable (debug : String → String) (ledger : Option IdempotencyLedger)
  (store : Option SqliteStateStore) (create : TransferCreate) (newId : TransferId)

def keyedLedger : Option IdempotencyLedger :=
  if create.idempotencyKey = "" then none else ledger

def ledgerGate : Option Answer × Option IdempotencyLedger :=
  match keyedLedger ledger create with
  | none => (none, ledger)
  | some l =>
    let r := l.evaluateTransferCreate .server create.idempotencyKey create.dstPath 0 store newId
    match r.1 with
    | .replayCommitted transferId files => (some (.committed transferId files), some r.2)
    | .conflict reason => (some (.error (conflictError debug reason)), some r.2)
    | _ => (none, some r.2)

variable (g : Gatekeeper)

def authorize (checks : List (Op × String)) : Option Answer :=
  if checks.all fun c => g.grants c.1 c.2 then none else some (.error .notFound)

def requiredGrants : List (Op × String) :=
  match create.op with
  | .delete => [(.delete, create.dstPath)]
  | .syncDelete => [(.syncDelete, create.dstPath)]
  | .symlink | .setXattr => [(.upload, create.dstPath)]
  | .hardlink => [(.upload, create.srcPath), (.upload, create.dstPath)]
  | .syncUpload => [(.sync, create.dstPath)]
  | .syncDownload => [(.sync, create.srcPath)]
  | .upload => [(.upload, create.dstPath)]
  | .download => [(.download, create.dstPath)]

def ledgerThenAuthorize : Option Answer × Option IdempotencyLedger :=
  let gate := ledgerGate debug ledger store create newId
  match gate.1 with
  | some answer => (some answer, gate.2)
  | none => (authorize g (requiredGrants create), gate.2)

/-- A delete, a link and an attribute request consult the ledger before the authorizer; the others
are authorized first. -/
def admission : Option Answer × Option IdempotencyLedger :=
  match create.op with
  | .delete | .syncDelete =>
    match g.deletion with
    | some e => (some (.error e), ledger)
    | none => ledgerThenAuthorize debug ledger store create newId g
  | .symlink | .hardlink | .setXattr => ledgerThenAuthorize debug ledger store create newId g
  | .upload | .download | .syncUpload | .syncDownload =>
    (authorize g (requiredGrants create), ledger)

inductive Selection where
  | answer (a : Answer)
  | transfer (transferId : TransferId) (resumed : Bool) (bytesReusable : ℕ)
deriving DecidableEq

def reusable (transferId : TransferId) : ℕ :=
  match store with
  | none => 0
  | some s =>
    match s.readBitmap transferId with
    | .ok bm => bm.bytesCompleted
    | .error _ => 0

def selectTransfer (bytesTotal : ℕ) : Selection × Option IdempotencyLedger :=
  match keyedLedger ledger create with
  | some l =>
    let r := l.evaluateTransferCreate .server create.idempotencyKey create.dstPath bytesTotal store
      newId
    match r.1 with
    | .replayCommitted transferId files => (.answer (.committed transferId files), some r.2)
    | .conflict reason => (.answer (.error (conflictError debug reason)), some r.2)
    | .replayActive transferId => (.transfer transferId true (reusable store transferId), some r.2)
    | .resumeExisting transferId bytesCompleted =>
      (.transfer transferId true bytesCompleted, some r.2)
    | .proceedNew transferId => (.transfer transferId false 0, some r.2)
  | none =>
    match store.bind fun s =>
        (s.getTransferByIdempotency .server create.idempotencyKey).toOption with
    | some r => (.transfer r.transferId true (reusable store r.transferId), ledger)
    | none => (.transfer newId false 0, ledger)

end

end Velcrux.Session
