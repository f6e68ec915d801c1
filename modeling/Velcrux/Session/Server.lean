import Velcrux.Session.Create
import Velcrux.Storage.Files
import Velcrux.Transfer.Upload

/-!
# The server with its sessions

Any number of TRANSFER_CREATE and RESUME requests at the same time. The receiving loops of parallel
streams are spawned: they hold the open staging file and go on when the session has returned with an
error.
-/

namespace Velcrux.Session

open Protocol State Storage Transfer ByteFile

structure ServerConfig where
  layout : LocalLayout
  backend : LocalBackend
  hasChunkStore : Bool
  debug : String → String

inductive Phase where
  | selected
  /-- The destination is hashed to see whether the upload is needed. `size` is its length by `stat`. -/
  | hashingExisting (inode size : ℕ) (read : Bytes)
  | identical
  | negotiating
  | prestaging
  | planned
  | receiving
  /-- The staging file is hashed; `zero` on the path that transfers nothing. -/
  | hashing (inode : ℕ) (read : Bytes) (zero : Bool)
  | awaitVerify (computed : Hash)
  /-- VERIFY_RESULT is sent and good; `verifyHash` is the hash of VERIFY. -/
  | awaitCommit (verifyHash : Hash) (zero : Bool)
  | executing
  | downloading
  | applied
  | committed
  | ended
deriving DecidableEq

structure Task where
  create : TransferCreate
  viaResume : Bool
  transferId : TransferId
  resumed : Bool
  total : ℕ
  /-- The session files chunks under 64 KiB slots, and starts from the bitmap of the query. -/
  delta : Bool
  bitmap : ChunkBitmap
  staged : Option ℕ
  receivers : ℕ
  broken : Bool
  spawned : Bool
  phase : Phase

namespace Task

variable (task : Task)

def start (create : TransferCreate) (viaResume : Bool) (transferId : TransferId) (resumed : Bool)
    (total : ℕ) (phase : Phase) : Task where
  create := create
  viaResume := viaResume
  transferId := transferId
  resumed := resumed
  total := total
  delta := false
  bitmap := .new
  staged := none
  receivers := 0
  broken := false
  spawned := false
  phase := phase

def chunkSize : ℕ := if task.delta then deltaChunkSize else m3ChunkSize

def isStreaming : Bool := task.create.fileHash = .zero

def bytesToTransfer : ℕ := task.create.fileSize - task.bitmap.bytesCompleted

def target (verifyHash : Hash) : Hash :=
  if task.create.fileHash ≠ .zero then task.create.fileHash else verifyHash

def stop : Task :=
  { task with phase := .ended, receivers := if task.spawned then task.receivers else 0 }

end Task

inductive CommitResult where
  | failed
  /-- After the rename, when the directory is synced. -/
  | syncFailed
  | ok
deriving DecidableEq

structure World where
  files : FileTable
  ledger : Option IdempotencyLedger
  store : Option SqliteStateStore
  tasks : ℕ → Option Task

/-- One step of the server. `i` is the task that takes it; `now` is the wall clock. -/
inductive Event where
  /-- TRANSFER_CREATE is admitted or answered; `checks` are the quota and disk-space checks. -/
  | request (i : ℕ) (create : TransferCreate) (gatekeeper : Gatekeeper) (checks : Bool)
      (newId : TransferId) (now : ℕ)
  /-- RESUME; `granted` is the authorizer's answer for the path of the record. -/
  | resume (i : ℕ) (transferId : TransferId) (idempotencyKey : String) (granted : Bool)
  | openExisting (i : ℕ)
  | readExisting (i n : ℕ)
  /-- The destination does not exist, or cannot be scanned, but there is a chunk store. -/
  | hintStore (i : ℕ)
  | commitIdentical (i : ℕ)
  /-- CHUNK_QUERY is answered and the staging file is created. -/
  | prestage (i : ℕ)
  /-- A chunk that the server has is copied to `offset`. -/
  | prestageCopy (i offset : ℕ) (data : Bytes) (length : ℕ)
  | prestaged (i : ℕ)
  | plan (i : ℕ)
  /-- TRANSFER_BEGIN: the staging file is opened for `streams` data streams. -/
  | begin (i streams : ℕ)
  /-- A frame that passed its checks takes effect. -/
  | chunk (i : ℕ) (c : ReceivedChunk)
  | streamEnd (i : ℕ) (clean : Bool)
  /-- A checkpoint of a single stream, or a CHECKPOINT frame before VERIFY. -/
  | checkpoint (i bytes tsMs now : ℕ)
  | startHash (i now : ℕ)
  | startHashZero (i : ℕ)
  | readStaging (i n : ℕ)
  | verify (i : ℕ) (transferId : TransferId) (verifyHash : Hash) (now : ℕ)
  | commit (i : ℕ) (transferId : TransferId) (result : CommitResult) (now : ℕ)
  | execute (i : ℕ) (ok : Bool)
  | downloadEnd (i : ℕ) (ok : Bool) (now : ℕ)
  | reply (i : ℕ)
  /-- The ledger and the record are told that the request took effect. -/
  | mark (i now : ℕ)
  /-- The handler returns with an error, or is dropped with its connection. -/
  | fail (i : ℕ) (dropped : Bool) (now : ℕ)
  /-- A staging file is removed by CANCEL or by the garbage collector. -/
  | discard (path : FilePath)

namespace World

variable (w : World)

def setTask (i : ℕ) (task : Task) : World :=
  { w with tasks := fun j => if j = i then some task else w.tasks j }

variable (f : SqliteStateStore → SqliteStateStore)

def withStore : World := { w with store := w.store.map f }

def withLedger (create : TransferCreate) (f : IdempotencyLedger → IdempotencyLedger) : World :=
  if create.idempotencyKey = "" then w else { w with ledger := w.ledger.map f }

def withRecord (transferId : TransferId) (f : TransferRecord → TransferRecord) : World :=
  w.withStore fun s =>
    match s.getTransfer transferId with
    | .ok r => s.updateTransfer (f r)
    | .error _ => s

@[simp] theorem files_setTask (i : ℕ) (task : Task) : (w.setTask i task).files = w.files := rfl

@[simp] theorem tasks_setTask (i : ℕ) (task : Task) (j : ℕ) :
    (w.setTask i task).tasks j = if j = i then some task else w.tasks j := rfl

@[simp] theorem ledger_setTask (i : ℕ) (task : Task) : (w.setTask i task).ledger = w.ledger := rfl

@[simp] theorem files_withStore : (w.withStore f).files = w.files := rfl

@[simp] theorem tasks_withStore : (w.withStore f).tasks = w.tasks := rfl

@[simp] theorem ledger_withStore : (w.withStore f).ledger = w.ledger := rfl

@[simp] theorem files_withLedger (create : TransferCreate)
    (f : IdempotencyLedger → IdempotencyLedger) : (w.withLedger create f).files = w.files := by
  unfold withLedger
  split_ifs <;> rfl

@[simp] theorem tasks_withLedger (create : TransferCreate)
    (f : IdempotencyLedger → IdempotencyLedger) : (w.withLedger create f).tasks = w.tasks := by
  unfold withLedger
  split_ifs <;> rfl

end World

section

variable (cfg : ServerConfig)

def ServerConfig.stagingPath (task : Task) : FilePath :=
  cfg.layout.stagingPath task.transferId task.create.dstPath

def ServerConfig.destPath (task : Task) : FilePath := cfg.layout.resolve task.create.dstPath

def newRecord (create : TransferCreate) (transferId : TransferId) (bytesTotal bytesReusable : ℕ)
    (now : ℕ) : TransferRecord where
  transferId := transferId
  idempotencyKey := create.idempotencyKey
  role := .server
  direction := if create.op = .download then .download else .upload
  status := .active
  remotePath := create.dstPath
  localPath := ""
  fileSize := bytesTotal
  fileHash := create.fileHash
  verifiedUpTo := 0
  lastCheckpointMs := now
  bytesCompleted := bytesReusable
  stagingRelpath := cfg.layout.ulid transferId ++ "/" ++ create.dstPath
  createdMs := now
  updatedMs := now

def register (create : TransferCreate) (transferId : TransferId) (bytesTotal bytesReusable : ℕ)
    (now : ℕ) (s : SqliteStateStore) : SqliteStateStore :=
  let s := (s.upsertTransfer (newRecord cfg create transferId bytesTotal bytesReusable now)).2
  if create.op = .upload then s.writeJournal ⟨transferId, 1, create.dstPath, .pending, now⟩ else s

def Answer.phase : Answer → Phase
  | .committed _ _ => .committed
  | .error _ => .ended

/-- The size a request is registered with: that of the file for a download, `none` when there is
none. -/
def bytesTotal (t : FileTable) (create : TransferCreate) : Option ℕ :=
  if create.op = .download then (t.readAt (cfg.layout.resolve create.dstPath)).map List.length
  else some create.fileSize

def startTransfer (w : World) (i : ℕ) (create : TransferCreate) (checks : Bool)
    (newId : TransferId) (now : ℕ) : World :=
  match bytesTotal cfg w.files create with
  | none => w.setTask i (.start create false newId false 0 .ended)
  | some total =>
    let r := selectTransfer cfg.debug w.ledger w.store create newId total
    let w := { w with ledger := r.2 }
    match r.1 with
    | .answer a => w.setTask i (.start create false newId false 0 a.phase)
    | .transfer transferId resumed bytesReusable =>
      let phase := if create.op = .download then Phase.downloading else .selected
      let task := Task.start create false transferId resumed total phase
      if checks then
        (w.withStore (register cfg create transferId total bytesReusable now)).setTask i task
      else w.setTask i { task with phase := .ended }

def startRequest (w : World) (i : ℕ) (create : TransferCreate) (g : Gatekeeper) (checks : Bool)
    (newId : TransferId) (now : ℕ) : World :=
  let r := admission cfg.debug w.ledger w.store create newId g
  match r.1 with
  | some a => { w with ledger := r.2 }.setTask i (.start create false newId false 0 a.phase)
  | none =>
    let w := { w with ledger := r.2 }
    match create.op with
    | .upload | .download => startTransfer cfg w i create checks newId now
    | .delete | .syncDelete | .symlink | .hardlink | .setXattr =>
      w.setTask i (.start create false newId false 0 .executing)
    | .syncUpload | .syncDownload => w.setTask i (.start create false newId false 0 .ended)

def startResume (w : World) (i : ℕ) (transferId : TransferId) (key : String) (granted : Bool) :
    Option World :=
  let record := w.store.bind fun s =>
    match s.getTransfer transferId with
    | .ok r => some r
    | .error _ => (s.getTransferByIdempotency .server key).toOption
  match record with
  | none => none
  | some r =>
    if granted ∧ r.direction = .upload then
      let create : TransferCreate :=
        ⟨.upload, "", r.remotePath, r.idempotencyKey, r.fileSize, r.fileHash⟩
      some (w.setTask i (.start create true r.transferId true r.fileSize .planned))
    else none

def linkTarget (dst raw : String) : FilePath :=
  let dir := (LocalLayout.components dst).dropLast
  (LocalLayout.components raw).foldl
    (fun acc c => if c = ".." then acc.dropLast else if c = "." ∨ c = "" then acc else acc ++ [c]) dir

def executed (t : FileTable) (task : Task) (ok : Bool) : Option FileTable :=
  let dst := cfg.destPath task
  match task.create.op with
  | .delete | .syncDelete => some (if ok then t.remove dst else t)
  | .symlink =>
    if ok then some (t.symLink (cfg.layout.root ++ linkTarget task.create.dstPath task.create.srcPath) dst)
    else none
  | .hardlink =>
    if ok then t.hardLink (cfg.layout.resolve task.create.srcPath) dst else none
  | _ => if ok then some t else none

def Task.startBitmap (store : Option SqliteStateStore) (task : Task) : ChunkBitmap :=
  if task.delta then task.bitmap
  else if task.resumed then
    (store.bind fun s => (s.readBitmap task.transferId).toOption).getD .new
  else .new

/-- What a failed task leaves in the record and the ledger: only the sessions of a TRANSFER_CREATE
that got as far as `server_upload_session_with_limits`, or a download, leave anything. -/
def World.failMarks (w : World) (task : Task) (now : ℕ) : World :=
  let inSession :=
    match task.phase with
    | .receiving | .awaitVerify _ | .downloading => true
    | .hashing _ _ zero | .awaitCommit _ zero => !zero
    | _ => false
  if inSession && !task.viaResume then
    let w := w.withLedger task.create (·.markResumable .server task.create.idempotencyKey)
    if task.delta then w
    else w.withRecord task.transferId fun r =>
      if r.status = .active then { r with status := .resumable, updatedMs := now } else r
  else w

def World.commitMarks (w : World) (task : Task) (now : ℕ) : World :=
  let size := task.total
  let w :=
    if task.viaResume then w
    else w.withLedger task.create (·.markCommitted .server task.create.idempotencyKey 1)
  if (task.create.op = .upload ∧ !task.delta) ∨ task.create.op = .download then
    w.withRecord task.transferId fun r =>
      { r with status := .committed, bytesCompleted := size, verifiedUpTo := size, updatedMs := now }
  else w

end

section

variable (cfg : ServerConfig) (H : HashFn)

def readBlock (t : FileTable) (inode : ℕ) (read : Bytes) (n : ℕ) : Option Bytes :=
  if (t.content inode).length ≤ read.length then none
  else some (read ++ slice (t.content inode) read.length n)

def World.failTask (w : World) (i : ℕ) (task : Task) (now : ℕ) : World :=
  (w.failMarks task now).setTask i task.stop

def openSession (w : World) (i : ℕ) (task : Task) (streams : ℕ) : Option World :=
  let path := cfg.stagingPath task
  let resumed := task.resumed || task.delta
  (w.files.openWrite path).map fun (inode, t) =>
    { w with
      files := t.setContent inode
        (cfg.backend.openedContent (w.files.readAt path) task.create.fileSize resumed) }.setTask i
      { task with
        bitmap := task.startBitmap w.store
        staged := some inode
        receivers := Nat.max streams 1
        spawned := decide (1 < streams)
        phase := .receiving }

def openPrestage (w : World) (i : ℕ) (task : Task) : Option World :=
  (w.files.openWrite (cfg.stagingPath task)).map fun (inode, t) =>
    { w with files := t.setContent inode (List.replicate task.create.fileSize 0) }.setTask i
      { task with delta := true, bitmap := .new, staged := some inode, phase := .prestaging }

def receive (w : World) (i : ℕ) (task : Task) (inode : ℕ) (c : ReceivedChunk) : World :=
  let r := receiveChunk task.chunkSize task.isStreaming ⟨w.files.content inode, task.bitmap⟩ c
  { w with files := w.files.setContent inode r.staging }.setTask i { task with bitmap := r.bitmap }

def hashed (w : World) (i : ℕ) (task : Task) (computed : Hash) (zero : Bool) : World :=
  if zero then
    if computed = task.create.fileHash then
      w.setTask i { task with phase := .awaitCommit task.create.fileHash true }
    else w.setTask i { task with phase := .ended }
  else w.setTask i { task with phase := .awaitVerify computed }

def verified (w : World) (i : ℕ) (task : Task) (computed : Hash) (transferId : TransferId)
    (verifyHash : Hash) (now : ℕ) : World :=
  if transferId ≠ task.transferId ∨
      (task.create.fileHash ≠ .zero ∧ verifyHash ≠ task.create.fileHash) then
    w.failTask i task now
  else if verifyOk task.create.fileHash computed verifyHash then
    w.setTask i { task with phase := .awaitCommit verifyHash false }
  else w.failTask i task now

/-- COMMIT: the journal says `Renamed`, then the staging file is renamed onto the destination. The
path that transfers nothing writes no journal and does not look at the id in COMMIT. -/
def commitTask (w : World) (i : ℕ) (task : Task) (zero : Bool) (transferId : TransferId)
    (result : CommitResult) (now : ℕ) : World :=
  if zero = false ∧ transferId ≠ task.transferId then w.failTask i task now
  else
    let w :=
      if zero then w
      else w.withStore (·.writeJournal ⟨task.transferId, 1, task.create.dstPath, .renamed, now⟩)
    match result, w.files.rename (cfg.stagingPath task) (cfg.destPath task) with
    | .failed, _ | _, none => w.failTask i task now
    | .syncFailed, some t => { w with files := t }.failTask i task now
    | .ok, some t =>
      let w :=
        if zero then w else w.withStore (·.markJournalCommitted task.transferId 1 now)
      { w with files := t }.setTask i { task with phase := .applied }

def checkpointTask (w : World) (task : Task) (bytes tsMs now : ℕ) : World :=
  (w.withStore (·.writeBitmap task.transferId task.bitmap now)).withRecord task.transferId fun r =>
    { r with bytesCompleted := bytes, lastCheckpointMs := tsMs, updatedMs := now }

def deltaEligible (w : World) (task : Task) : Bool :=
  task.create.fileHash ≠ .zero &&
    ((w.files.fileAt (cfg.destPath task)).isSome || cfg.hasChunkStore)

def taskStep (w : World) (i : ℕ) (task : Task) : Phase → Event → Option World
  | .selected, .openExisting _ =>
    if task.create.fileHash = .zero then none
    else
      (w.files.fileAt (cfg.destPath task)).map fun inode =>
        w.setTask i
          { task with phase := .hashingExisting inode (w.files.content inode).length [] }
  | .hashingExisting inode size read, .readExisting _ n =>
    match readBlock w.files inode read n with
    | some read => some (w.setTask i { task with phase := .hashingExisting inode size read })
    | none =>
      if H read = task.create.fileHash ∧ size = task.create.fileSize then
        some (w.setTask i { task with phase := .identical })
      else some (w.setTask i { task with phase := .negotiating })
  | .selected, .hintStore _ =>
    if deltaEligible cfg w task ∧ cfg.hasChunkStore then
      some (w.setTask i { task with phase := .negotiating })
    else none
  | .identical, .commitIdentical _ => some (w.setTask i { task with phase := .applied })
  | .negotiating, .prestage _ => openPrestage cfg w i task
  | .prestaging, .prestageCopy _ offset data length =>
    task.staged.map fun inode =>
      { w with files := w.files.write inode offset data }.setTask i
        { task with bitmap := task.bitmap.markComplete (offset / deltaChunkSize) length }
  | .prestaging, .prestaged _ => some (w.setTask i { task with phase := .planned })
  | .selected, .plan _ =>
    if deltaEligible cfg w task then none else some (w.setTask i { task with phase := .planned })
  | .negotiating, .plan _ => some (w.setTask i { task with phase := .planned })
  | .planned, .begin _ streams =>
    if task.delta ∧ task.bytesToTransfer = 0 then none else openSession cfg w i task streams
  | .planned, .startHashZero _ =>
    if task.delta ∧ task.bytesToTransfer = 0 then
      (w.files.fileAt (cfg.stagingPath task)).map fun inode =>
        w.setTask i { task with phase := .hashing inode [] true }
    else none
  | .receiving, .startHash _ now =>
    if task.receivers = 0 ∧ task.broken = false then
      (w.files.fileAt (cfg.stagingPath task)).map fun inode =>
        (w.withStore (·.writeBitmap task.transferId task.bitmap now)).setTask i
          { task with phase := .hashing inode [] false }
    else none
  | .hashing inode read zero, .readStaging _ n =>
    match readBlock w.files inode read n with
    | some read => some (w.setTask i { task with phase := .hashing inode read zero })
    | none => some (hashed w i task (H read) zero)
  | .receiving, .checkpoint _ bytes tsMs now =>
    if task.spawned then none else some (checkpointTask w task bytes tsMs now)
  | .awaitVerify _, .checkpoint _ bytes tsMs now => some (checkpointTask w task bytes tsMs now)
  | .awaitVerify computed, .verify _ transferId verifyHash now =>
    some (verified w i task computed transferId verifyHash now)
  | .awaitCommit _ zero, .commit _ transferId result now =>
    some (commitTask cfg w i task zero transferId result now)
  | .executing, .execute _ ok =>
    match executed cfg w.files task ok with
    | some t => some ({ w with files := t }.setTask i { task with phase := .applied })
    | none => some (w.setTask i { task with phase := .ended })
  | .downloading, .downloadEnd _ ok now =>
    if ok then some (w.setTask i { task with phase := .applied }) else some (w.failTask i task now)
  | .applied, .reply _ => some (w.setTask i { task with phase := .committed })
  | .applied, .mark _ now => some (w.commitMarks task now)
  | .committed, .mark _ now => some (w.commitMarks task now)
  | _, _ => none

def receiverStep (w : World) (i : ℕ) (task : Task) : Event → Option World
  | .chunk _ c =>
    if task.receivers = 0 then none else task.staged.map fun inode => receive w i task inode c
  | .streamEnd _ clean =>
    if task.receivers = 0 then none
    else some (w.setTask i
      { task with receivers := task.receivers - 1, broken := task.broken || !clean })
  | _ => none

def Event.task? : Event → Option ℕ
  | .request .. | .resume .. | .discard _ => none
  | .openExisting i | .readExisting i _ | .hintStore i | .commitIdentical i | .prestage i
  | .prestageCopy i .. | .prestaged i | .plan i | .begin i _ | .chunk i _ | .streamEnd i _
  | .checkpoint i .. | .startHash i _ | .startHashZero i | .readStaging i _ | .verify i ..
  | .commit i .. | .execute i _ | .downloadEnd i .. | .reply i | .mark i _ | .fail i .. => some i

def Phase.over : Phase → Bool
  | .committed | .ended => true
  | _ => false

/-- A step is what one task does between two points where it waits, so the runs are the
interleavings of the tasks. -/
def step (w : World) (e : Event) : Option World :=
  match e with
  | .request i create g checks newId now =>
    if (w.tasks i).isSome then none else some (startRequest cfg w i create g checks newId now)
  | .resume i transferId key granted =>
    if (w.tasks i).isSome then none else startResume w i transferId key granted
  | .discard path => some { w with files := w.files.remove path }
  | e =>
    match e.task? with
    | none => none
    | some i =>
      match w.tasks i with
      | none => none
      | some task =>
        match e with
        | .chunk .. | .streamEnd .. => receiverStep w i task e
        | .fail _ dropped now =>
          if task.phase.over then none
          else if dropped then some (w.setTask i task.stop)
          else some (w.failTask i task now)
        | e => taskStep cfg H w i task task.phase e

end

end Velcrux.Session
