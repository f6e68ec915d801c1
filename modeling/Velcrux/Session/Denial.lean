import Velcrux.Session.Create
import Velcrux.Wire.Transfer

/-!
# What a denied request is answered

The first reply of the handlers for TRANSFER_CREATE, RESUME, STAT and LIST, compared over two server
states that agree on everything the identity is authorized for.
-/

namespace Velcrux.Session

open Protocol State
open Auth (Op)

inductive DeletionPolicy where
  | adminOnly
  | disabled
  | rateLimited (maxDeletions windowSecs : ℕ)
  | explicitGrant
deriving DecidableEq

def DeletionPolicy.refusal (isAdmin withinRate : Bool) : DeletionPolicy → Option Refusal
  | .adminOnly =>
    if isAdmin then none
    else some ⟨.permissionDenied, "remote deletion requires admin role under active policy"⟩
  | .disabled => some ⟨.permissionDenied, "remote deletion is disabled on this server"⟩
  | .rateLimited _ _ =>
    if withinRate then none else some ⟨.quotaExceeded, "remote deletion rate limit exceeded"⟩
  | .explicitGrant => none

/-- SQLite's `LIKE`: `%` is any text, `_` any character, and the case of ASCII letters is ignored. -/
def sqlLike : List Char → List Char → Bool
  | [], text => text.isEmpty
  | '%' :: pattern, text => text.tails.any (sqlLike pattern)
  | '_' :: pattern, text =>
    match text with
    | [] => false
    | _ :: text => sqlLike pattern text
  | p :: pattern, text =>
    match text with
    | [] => false
    | t :: text => p.toLower = t.toLower && sqlLike pattern text

def maxLikePattern : ℕ := 50000

variable (s : SqliteStateStore)

/-- `list_transfers_by_path`. A pattern that is too long is an error as soon as a row is compared
with it. Rows of one millisecond are in the order of the table. -/
def listTransfersByPath (role : Role) (path : List Char) :
    Except StateStoreError (List TransferRecord) :=
  let rows := s.transfers.filter fun r => r.role = role
  let like := path ++ ['%']
  if maxLikePattern < Storage.byteLen like ∧ rows ≠ [] then .error .database
  else
    .ok ((rows.filter fun r => sqlLike like r.remotePath.toList).insertionSort
      fun r r' => r.createdMs ≤ r'.createdMs)

inductive Request where
  | create (create : TransferCreate)
  | resume (resume : Wire.Resume)
  | stat (query : Wire.StatQuery)
  | list (query : Wire.ListQuery)

inductive FirstReply where
  | answer (a : Answer)
  | resumeState (state : Wire.ResumeState)
  | statResult (result : Wire.StatResult)
  | listResult (result : Wire.ListResult)
  | carriedOut
deriving DecidableEq

variable (r : TransferRecord)

def statOf : Wire.StatResult where
  transferId := r.transferId
  found := true
  status := r.status.name
  direction := r.direction.name
  remotePath := r.remotePath
  fileSize := .ofNat r.fileSize
  bytesCompleted := .ofNat r.bytesCompleted
  verifiedUpTo := .ofNat r.verifiedUpTo
  createdMs := .ofNat r.createdMs
  updatedMs := .ofNat r.updatedMs

def statMissing (transferId : TransferId) (status : String) : Wire.StatResult where
  transferId := transferId
  found := false
  status := status
  direction := ""
  remotePath := ""
  fileSize := 0
  bytesCompleted := 0
  verifiedUpTo := 0
  createdMs := 0
  updatedMs := 0

section Handlers

variable (g : Gatekeeper) (store : Option SqliteStateStore)

def resumeRecord (m : Wire.Resume) : Option TransferRecord :=
  match s.getTransfer m.transferId with
  | .ok r => some r
  | .error _ => (s.getTransferByIdempotency .server m.idempotencyKey).toOption

def resumeOp : Op :=
  match r.direction with
  | .upload => .resume
  | .download => .download

def resumeStateOf : Wire.ResumeState :=
  let bitmap := (s.readBitmap r.transferId).toOption.getD .new
  { transferId := r.transferId
    stagingRelpath := r.stagingRelpath
    fileSize := .ofNat r.fileSize
    bytesCompleted := .ofNat bitmap.bytesCompleted
    verifiedUpTo := .ofNat r.verifiedUpTo
    fileHash := r.fileHash
    completedChunks := (bitmap.set.sort (· ≤ ·)).map .ofNat }

def handleResume (m : Wire.Resume) : FirstReply :=
  match store with
  | none => .answer (.error .notFound)
  | some s =>
    match resumeRecord s m with
    | none => .answer (.error .notFound)
    | some r =>
      if g.grants (resumeOp r) r.remotePath then .resumeState (resumeStateOf s r)
      else .answer (.error .notFound)

def handleStat (q : Wire.StatQuery) : Wire.StatResult :=
  match store with
  | none => statMissing q.transferId "no_state"
  | some s =>
    match s.getTransfer q.transferId with
    | .ok r => if g.grants .list r.remotePath then statOf r else statMissing q.transferId "missing"
    | .error _ => statMissing q.transferId "missing"

def handleList (q : Wire.ListQuery) : Wire.ListResult :=
  match store with
  | none => ⟨[]⟩
  | some s =>
    match listTransfersByPath s .server (q.urlPrefix.toList.dropWhile (· = '/')) with
    | .ok rows => ⟨(rows.filter fun r => g.grants .list r.remotePath).map statOf⟩
    | .error _ => ⟨[]⟩

end Handlers

/-! ## Two server states -/

structure ServerData where
  ledger : IdempotencyLedger
  store : SqliteStateStore
  files : String → Option Bytes
  ids_nodup : (store.transfers.map fun r => r.transferId).Nodup
  keys_nodup : (store.transfers.map fun r => (r.role, r.idempotencyKey)).Nodup

/-- The configuration of a server as an identity meets it: whether it has a ledger and a state store,
its authorizer, the deletion policy, and the id that is generated next. -/
structure Deployment where
  hasLedger : Bool
  hasStore : Bool
  grants : Op → String → Bool
  policy : DeletionPolicy
  isAdmin : Bool
  withinRate : Bool
  debug : String → String
  newId : TransferId

namespace Deployment

variable (dep : Deployment)

def gatekeeper : Gatekeeper := ⟨dep.policy.refusal dep.isAdmin dep.withinRate, dep.grants⟩

def reply (d : ServerData) : Request → FirstReply
  | .create create =>
    let store := if dep.hasStore then some d.store else none
    let ledger := if dep.hasLedger then some d.ledger else none
    match (admission dep.debug ledger store create dep.newId dep.gatekeeper).1 with
    | some answer => .answer answer
    | none => .carriedOut
  | .resume m => handleResume dep.gatekeeper (if dep.hasStore then some d.store else none) m
  | .stat q => .statResult (handleStat dep.gatekeeper (if dep.hasStore then some d.store else none) q)
  | .list q => .listResult (handleList dep.gatekeeper (if dep.hasStore then some d.store else none) q)

def Hidden (path : String) : Prop := ∀ op, dep.grants op path = false

instance (path : String) : Decidable (dep.Hidden path) :=
  decidable_of_iff (∀ op ∈ [Op.upload, .download, .list, .delete, .sync, .resume, .admin, .syncDelete],
    dep.grants op path = false)
    ⟨fun h op => h op (by cases op <;> decide), fun h op _ => h op⟩

def Denied (d : ServerData) : Request → Prop
  | .create create => (requiredGrants create).all (fun c => dep.grants c.1 c.2) = false
  | .resume m => dep.hasStore = true ∧
      ∃ r, resumeRecord d.store m = some r ∧ dep.grants (resumeOp r) r.remotePath = false
  | .stat q => dep.hasStore = true ∧
      ∃ r, d.store.getTransfer q.transferId = .ok r ∧ dep.grants .list r.remotePath = false
  | .list _ => True

structure SameVisible (d d' : ServerData) : Prop where
  ledger : ∀ role key,
    (d.ledger.entries role key).filter (fun e => ¬ dep.Hidden e.remotePath) =
      (d'.ledger.entries role key).filter (fun e => ¬ dep.Hidden e.remotePath)
  transfers : d.store.transfers.filter (fun r => ¬ dep.Hidden r.remotePath) =
    d'.store.transfers.filter (fun r => ¬ dep.Hidden r.remotePath)
  bitmaps : ∀ r ∈ d.store.transfers, ¬ dep.Hidden r.remotePath →
    d.store.chunkBitmap r.transferId = d'.store.chunkBitmap r.transferId
  files : ∀ path, ¬ dep.Hidden path → d.files path = d'.files path

/-- **The contract.** A denied request is answered alike in any two states that differ only in what
the identity is not authorized for. -/
def RevealsNothing (req : Request) : Prop :=
  ∀ d d', dep.Denied d req → dep.SameVisible d d' → dep.reply d req = dep.reply d' req

/-- A request whose reply cannot depend on what is hidden. A delete, a link and an attribute request
ask the ledger before the authorizer, and RESUME goes on to the key only when the id is unknown. -/
def Discreet : Request → Prop
  | .create create =>
    (requiredGrants create).all (fun c => dep.grants c.1 c.2) = true ∨
    match create.op with
    | .upload | .download | .syncUpload | .syncDownload => True
    | .delete | .syncDelete =>
      (dep.policy.refusal dep.isAdmin dep.withinRate).isSome = true ∨ dep.hasLedger = false ∨
        create.idempotencyKey = "" ∨ ∀ path, ¬ dep.Hidden path
    | .symlink | .hardlink | .setXattr =>
      dep.hasLedger = false ∨ create.idempotencyKey = "" ∨ ∀ path, ¬ dep.Hidden path
  | .resume _ =>
    dep.hasStore = false ∨ (∀ path, ¬ dep.Hidden path) ∨
      ∀ path, dep.grants .resume path = false ∧ dep.grants .download path = false
  | .stat _ | .list _ => True

end Deployment

end Velcrux.Session
