import Velcrux.Util

/-!
# Directory transactions

`sync/transaction`: files are staged in a shadow directory, verified and backed up by `prepare`, and
moved into the target directory by `commit`, which rolls back when a move fails. The three
directories are maps from relative paths to contents.
-/

namespace Velcrux.Sync

open Function

inductive TransactionState where
  | staging
  | prepared
  | committing
  | committed
  | aborted
  | rolledBack
deriving DecidableEq

def TransactionState.display : TransactionState → String
  | .staging => "Staging"
  | .prepared => "Prepared"
  | .committing => "Committing"
  | .committed => "Committed"
  | .aborted => "Aborted"
  | .rolledBack => "RolledBack"

inductive TransactionAction where
  | create
  | update
  | delete
deriving DecidableEq

inductive TransactionError where
  | invalidPath (detail : String)
  | checksumMismatch (path : String) (expected actual : Hash)
  | sizeMismatch (path : String) (expected actual : ℕ)
  | invalidState (current expected : String)
  | io (detail : String)
deriving DecidableEq

structure TransactionItem where
  relPath : String
  action : TransactionAction
  shadowPath : Option String
  backupPath : Option String
  expectedHash : Option Hash
  size : ℕ
  applied : Bool
deriving DecidableEq

structure TransactionJournal where
  state : TransactionState
  items : List TransactionItem
deriving DecidableEq

structure TransactionReport where
  state : TransactionState
  filesTotal : ℕ
  filesCommitted : ℕ
  filesBackedUp : ℕ
  filesRolledBack : ℕ
  bytesCommitted : ℕ
deriving DecidableEq

/-- The regular files of the three directories, and the journal. A directory is wherever a path
needs one; what happens when one stands where a file goes is not modelled. -/
structure Disk where
  target : String → Option Bytes
  shadow : String → Option Bytes
  backup : String → Option Bytes
  journal : Option TransactionJournal

inductive Point where
  | backupDirs (relPath : String)
  | backupCopy (relPath : String)
  | journal (state : TransactionState)
  | createDirAll (relPath : String)
  | removeFile (relPath : String)
  | rename (relPath : String)
  | undo (relPath : String)
  | purgeShadow
  | purgeBackup
deriving DecidableEq

inductive Fate where
  | works
  | fails (message : String)
  | crashes
deriving DecidableEq

inductive Attempt where
  | done
  | failed (message : String)
  | crashed
deriving DecidableEq

variable (env : Point → Fate)

/-- Every file-system call goes through here: it succeeds, fails, or the process ends right before
it. -/
def attempt (p : Point) (effect : Disk → Except String Disk) (d : Disk) : Disk × Attempt :=
  match env p with
  | .crashes => (d, .crashed)
  | .fails message => (d, .failed message)
  | .works =>
    match effect d with
    | .ok d' => (d', .done)
    | .error message => (d, .failed message)

inductive Stop where
  | crashed
  | error (e : TransactionError)
deriving DecidableEq

namespace Disk

def removeFile (relPath : String) (d : Disk) : Except String Disk :=
  if (d.target relPath).isSome then .ok { d with target := update d.target relPath none }
  else .error "No such file or directory (os error 2)"

def rename (shadow relPath : String) (d : Disk) : Except String Disk :=
  match d.shadow shadow with
  | none => .error "No such file or directory (os error 2)"
  | some bytes =>
    .ok { d with
      shadow := update d.shadow shadow none
      target := update d.target relPath (some bytes) }

def restore (backup relPath : String) (d : Disk) : Except String Disk :=
  match d.backup backup with
  | none => .error "No such file or directory (os error 2)"
  | some bytes => .ok { d with target := update d.target relPath (some bytes) }

def backUp (relPath : String) (d : Disk) : Except String Disk :=
  match d.target relPath with
  | none => .error "No such file or directory (os error 2)"
  | some bytes => .ok { d with backup := update d.backup relPath (some bytes) }

def writeJournal (state : TransactionState) (items : List TransactionItem) (d : Disk) :
    Except String Disk := .ok { d with journal := some ⟨state, items⟩ }

def purgeShadow (d : Disk) : Except String Disk := .ok { d with shadow := fun _ => none }

def purgeBackup (d : Disk) : Except String Disk := .ok { d with backup := fun _ => none }

end Disk

structure DirectoryTransaction where
  state : TransactionState
  items : List TransactionItem
deriving DecidableEq

namespace DirectoryTransaction

variable (tx : DirectoryTransaction)

def saveJournal (d : Disk) : Disk × Except Stop Unit :=
  match attempt env (.journal tx.state) (Disk.writeJournal tx.state tx.items) d with
  | (d, .done) => (d, .ok ())
  | (d, .failed message) => (d, .error (.error (.io message)))
  | (d, .crashed) => (d, .error .crashed)

def stageDeletion (d : Disk) (relPath : String) : DirectoryTransaction × Disk :=
  match d.target relPath with
  | none => (tx, d)
  | some bytes =>
    let tx := { tx with items := tx.items ++
      [⟨relPath, .delete, none, none, none, bytes.length, false⟩] }
    (tx, { d with journal := some ⟨tx.state, tx.items⟩ })

def verifyShadow (H : HashFn) (d : Disk) (item : TransactionItem) : Except TransactionError ℕ :=
  match item.shadowPath with
  | none => .ok 0
  | some shadow =>
    match d.shadow shadow with
    | none => .error (.invalidPath s!"staged shadow file missing: {shadow}")
    | some bytes =>
      if bytes.length ≠ item.size then
        .error (.sizeMismatch item.relPath item.size bytes.length)
      else
        match item.expectedHash with
        | none => .ok item.size
        | some expected =>
          if H bytes ≠ expected then .error (.checksumMismatch item.relPath expected (H bytes))
          else .ok item.size

variable (item : TransactionItem)

def backUpItem (d : Disk) : Disk × Except Stop (TransactionItem × ℕ) :=
  if item.action ≠ .create ∧ (d.target item.relPath).isSome then
    match attempt env (.backupDirs item.relPath) .ok d with
    | (d, .crashed) => (d, .error .crashed)
    | (d, .failed message) => (d, .error (.error (.io message)))
    | (d, .done) =>
      match attempt env (.backupCopy item.relPath) (Disk.backUp item.relPath) d with
      | (d, .crashed) => (d, .error .crashed)
      | (d, .failed message) => (d, .error (.error (.io message)))
      | (d, .done) => (d, .ok ({ item with backupPath := some item.relPath }, 1))
  else (d, .ok (item, 0))

def prepareLoop (env : Point → Fate) (H : HashFn) :
    List TransactionItem → Disk → Disk × Except Stop (List TransactionItem × ℕ × ℕ)
  | [], d => (d, .ok ([], 0, 0))
  | item :: items, d =>
    match verifyShadow H d item with
    | .error e => (d, .error (.error e))
    | .ok bytes =>
      match backUpItem env item d with
      | (d, .error e) => (d, .error e)
      | (d, .ok (item, backedUp)) =>
        match prepareLoop env H items d with
        | (d, .error e) => (d, .error e)
        | (d, .ok (items, n, total)) => (d, .ok (item :: items, n + backedUp, total + bytes))

def prepare (H : HashFn) (tx : DirectoryTransaction) (d : Disk) :
    Disk × Except Stop (DirectoryTransaction × TransactionReport) :=
  if tx.state ≠ .staging then
    (d, .error (.error (.invalidState tx.state.display "Staging")))
  else
    match prepareLoop env H tx.items d with
    | (d, .error e) => (d, .error e)
    | (d, .ok (items, backedUp, total)) =>
      let tx : DirectoryTransaction := ⟨.prepared, items⟩
      match tx.saveJournal env d with
      | (d, .error e) => (d, .error e)
      | (d, .ok ()) => (d, .ok (tx, ⟨.prepared, items.length, 0, backedUp, 0, total⟩))

def restoreItem (d : Disk) : Disk × Attempt × ℕ :=
  match item.backupPath with
  | none => (d, .done, 0)
  | some backup =>
    if (d.backup backup).isSome then
      let r := attempt env (.undo item.relPath) (Disk.restore backup item.relPath) d
      (r.1, r.2, 1)
    else (d, .done, 0)

def undoItem (d : Disk) : Disk × Attempt × ℕ :=
  match item.action with
  | .create =>
    if (d.target item.relPath).isSome then
      let r := attempt env (.undo item.relPath) (Disk.removeFile item.relPath) d
      (r.1, r.2, 1)
    else (d, .done, 0)
  | .update | .delete => restoreItem env item d

def rollbackLoop (env : Point → Fate) :
    List TransactionItem → Disk → Disk × Except Stop (List TransactionItem × ℕ)
  | [], d => (d, .ok ([], 0))
  | item :: items, d =>
    if item.applied then
      match undoItem env item d with
      | (d, .crashed, _) => (d, .error .crashed)
      | (d, _, undone) =>
        match rollbackLoop env items d with
        | (d, .error e) => (d, .error e)
        | (d, .ok (items, n)) => (d, .ok ({ item with applied := false } :: items, n + undone))
    else
      match rollbackLoop env items d with
      | (d, .error e) => (d, .error e)
      | (d, .ok (items, n)) => (d, .ok (item :: items, n))

def purge (d : Disk) : Disk × Except Stop Unit :=
  match attempt env .purgeShadow Disk.purgeShadow d with
  | (d, .crashed) => (d, .error .crashed)
  | (d, _) =>
    match attempt env .purgeBackup Disk.purgeBackup d with
    | (d, .crashed) => (d, .error .crashed)
    | (d, _) => (d, .ok ())

def rollback (d : Disk) : Disk × Except Stop (DirectoryTransaction × TransactionReport) :=
  match rollbackLoop env tx.items d with
  | (d, .error e) => (d, .error e)
  | (d, .ok (items, undone)) =>
    let tx : DirectoryTransaction := ⟨.rolledBack, items⟩
    match tx.saveJournal env d with
    | (d, .error e) => (d, .error e)
    | (d, .ok ()) =>
      match purge env d with
      | (d, .error e) => (d, .error e)
      | (d, .ok ()) => (d, .ok (tx, ⟨.rolledBack, items.length, 0, 0, undone, 0⟩))

def abort (d : Disk) : Disk × Except Stop DirectoryTransaction :=
  let tx := { tx with state := .aborted }
  match tx.saveJournal env d with
  | (d, .error e) => (d, .error e)
  | (d, .ok ()) =>
    match purge env d with
    | (d, .error e) => (d, .error e)
    | (d, .ok ()) => (d, .ok tx)

/-! ### Commit -/

/-- How one item of the loop ends: moved; failed, which ends the loop; or out of `commit` with `?`. -/
inductive ItemEnd where
  | moved
  | failed (message : String)
  | returned (message : String)
  | crashed
deriving DecidableEq

def moveFile (shadow relPath : String) (d : Disk) : Disk × ItemEnd :=
  match attempt env (.createDirAll relPath) .ok d with
  | (d, .crashed) => (d, .crashed)
  | (d, .failed message) => (d, .returned message)
  | (d, .done) =>
    -- the result of this `remove_file` is dropped
    let removal := if (d.target relPath).isSome then
        attempt env (.removeFile relPath) (Disk.removeFile relPath) d
      else (d, .done)
    match removal with
    | (d, .crashed) => (d, .crashed)
    | (d, _) =>
      match attempt env (.rename relPath) (Disk.rename shadow relPath) d with
      | (d, .crashed) => (d, .crashed)
      | (d, .failed message) => (d, .failed message)
      | (d, .done) => (d, .moved)

def commitItem (d : Disk) : Disk × ItemEnd :=
  match item.action with
  | .create | .update =>
    match item.shadowPath with
    | none => (d, .moved)
    | some shadow => moveFile env shadow item.relPath d
  | .delete =>
    if (d.target item.relPath).isSome then
      match attempt env (.removeFile item.relPath) (Disk.removeFile item.relPath) d with
      | (d, .crashed) => (d, .crashed)
      | (d, .failed message) => (d, .failed message)
      | (d, .done) => (d, .moved)
    else (d, .moved)

def commitLoop (env : Point → Fate) :
    List TransactionItem → Disk → Disk × List TransactionItem × ItemEnd
  | [], d => (d, [], .moved)
  | item :: items, d =>
    match commitItem env item d with
    | (d, .moved) =>
      let r := commitLoop env items d
      (r.1, { item with applied := true } :: r.2.1, r.2.2)
    | (d, .failed message) =>
      (d, item :: items, .failed s!"commit failed on '{item.relPath}': {message}")
    | (d, .returned message) => (d, item :: items, .returned message)
    | (d, .crashed) => (d, item :: items, .crashed)

def committedFiles (items : List TransactionItem) : List TransactionItem :=
  items.filter fun item => item.applied && item.action != .delete

def commitPrepared (items : List TransactionItem) (d : Disk) :
    Disk × Except Stop (DirectoryTransaction × TransactionReport) :=
  match (⟨.committing, items⟩ : DirectoryTransaction).saveJournal env d with
  | (d, .error e) => (d, .error e)
  | (d, .ok ()) =>
    match commitLoop env items d with
    | (d, _, .crashed) => (d, .error .crashed)
    | (d, _, .returned message) => (d, .error (.error (.io message)))
    | (d, items, .failed message) =>
      match rollback env ⟨.committing, items⟩ d with
      | (d, .error .crashed) => (d, .error .crashed)
      | (d, _) => (d, .error (.error (.io s!"{message}; transaction rolled back")))
    | (d, items, .moved) =>
      let tx : DirectoryTransaction := ⟨.committed, items⟩
      match tx.saveJournal env d with
      | (d, .error e) => (d, .error e)
      | (d, .ok ()) =>
        match attempt env .purgeShadow Disk.purgeShadow d with
        | (d, .crashed) => (d, .error .crashed)
        | (d, _) =>
          let moved := committedFiles items
          (d, .ok (tx, ⟨.committed, items.length, moved.length, 0, 0,
            (moved.map TransactionItem.size).sum⟩))

/-- `commit`; it prepares the transaction first when that has not been done. -/
def commit (H : HashFn) (tx : DirectoryTransaction) (d : Disk) :
    Disk × Except Stop (DirectoryTransaction × TransactionReport) :=
  if tx.state = .staging then
    match tx.prepare env H d with
    | (d, .error e) => (d, .error e)
    | (d, .ok (tx, _)) => commitPrepared env tx.items d
  else if tx.state = .prepared then commitPrepared env tx.items d
  else (d, .error (.error (.invalidState tx.state.display "Prepared")))

end DirectoryTransaction

end Velcrux.Sync
