import Velcrux.Foundations.FileSystem
import Velcrux.Foundations.Resumption
import Velcrux.State.Store
import Velcrux.Storage.Files
import Velcrux.Storage.Xattr

/-!
# The journaled commit of a directory sync

The commit loop of `execute_directory_sync` without a transaction (`sync/directory`): every staged
file or link gets a journal row, replaces what is at its destination, and has its row marked.
`resume_interrupted_commit` goes through the unmarked rows.
-/

namespace Velcrux.Sync

open Posix Resumption
open State (CommitJournalEntry CommitStatus SqliteStateStore StateStoreError)
open Storage (xattrSuffix)
open Storage.LocalLayout (components)

structure FileData where
  bytes : Bytes
  mode : UInt32
deriving DecidableEq

structure SyncWorld where
  fs : FileSystem FileData
  store : SqliteStateStore

inductive SyncError where
  | io (e : Errno)
  | store (e : StateStoreError)
  | reconstruction (text : String)
deriving DecidableEq

abbrev SyncProg := Prog SyncWorld SyncError

variable (op : FileSystem FileData → Except Errno (FileSystem FileData))

def fsCall : SyncProg (Except Errno Unit) :=
  .attempt .io fun w =>
    match op w.fs with
    | .ok fs => .ok ((), { w with fs })
    | .error e => .error e

def isThere (path : Path) : SyncProg Bool :=
  (Prog.attempt Errno.io fun w : SyncWorld => .ok ((w.fs.lstat path).isOk, w)).bind fun
    | .ok b => .ret b
    | .error _ => .ret false

def pathExists (path : Path) : SyncProg Bool :=
  (Prog.attempt Errno.io fun w : SyncWorld => .ok (w.fs.pathExists path, w)).bind fun
    | .ok b => .ret b
    | .error _ => .ret false

def fsTry : SyncProg Unit :=
  (fsCall op).orFail .io

def fsIgnore : SyncProg Unit :=
  (fsCall op).bind fun _ => .ret ()

def storeTry (op : SqliteStateStore → Except StateStoreError SqliteStateStore) : SyncProg Unit :=
  (Prog.attempt StateStoreError.database fun w : SyncWorld =>
    match op w.store with
    | .ok store => .ok ((), { w with store })
    | .error e => .error e).orFail .store

def writeJournal (entry : CommitJournalEntry) (s : SqliteStateStore) :
    Except StateStoreError SqliteStateStore :=
  if s.hasTransfer entry.transferId then .ok (s.writeJournal entry) else .error .database

def markJournalCommitted (transferId : TransferId) (fileId now : ℕ) (s : SqliteStateStore) :
    Except StateStoreError SqliteStateStore :=
  if s.commitJournal.any fun e => e.transferId = transferId ∧ e.fileId = fileId then
    .ok (s.markJournalCommitted transferId fileId now)
  else .error .notFound

/-- What a commit works with: the destination, the staging root, the transfer, the time that is written
to its journal rows, whether extended attributes are stripped, and the modes of the regular files of
the source. -/
structure CommitSetting where
  dstDir : Path
  stagingRoot : Path
  transferId : TransferId
  nowMs : ℕ
  strip : Bool
  srcMode : String → Option UInt32

structure StagedFile where
  fileId : ℕ
  relPath : String
deriving DecidableEq

def sidecarPath (path : Path) : Path :=
  path.dropLast ++ (path.getLast?.map fun name => name ++ xattrSuffix).toList

namespace CommitSetting

variable (c : CommitSetting) (e : StagedFile)

def finalDst : Path := c.dstDir ++ components e.relPath

def stagedFile : Path := c.stagingRoot ++ components e.relPath

def makeParents : SyncProg Unit := fsTry fun fs => fs.createDirAll (c.finalDst e).dropLast

def journalEntry : CommitJournalEntry :=
  ⟨c.transferId, e.fileId, e.relPath, .pending, c.nowMs⟩

def removeOld : SyncProg Unit :=
  (isThere (c.finalDst e)).bind fun there =>
    if there then fsIgnore fun fs => fs.unlink (c.finalDst e) else .ret ()

def moveSidecar : SyncProg Unit :=
  let staged := sidecarPath (c.stagedFile e)
  let final := sidecarPath (c.finalDst e)
  if c.strip then
    (fsIgnore fun fs => fs.unlink final).bind fun _ => fsIgnore fun fs => fs.unlink staged
  else
    (isThere staged).bind fun there =>
      if there then
        (isThere final).bind fun old =>
          (if old then fsIgnore fun fs => fs.unlink final else .ret ()).bind fun _ =>
            fsIgnore fun fs => fs.rename staged final
      else .ret ()

def applyMode : SyncProg Unit :=
  match c.srcMode e.relPath with
  | some mode => fsIgnore fun fs => fs.modifyFile (c.finalDst e) fun d => { d with mode }
  | none => .ret ()

def settle : SyncProg Unit := (c.moveSidecar e).bind fun _ => c.applyMode e

def markCommitted : SyncProg Unit :=
  storeTry (markJournalCommitted c.transferId e.fileId c.nowMs)

/-- One file: its row in the journal, the rename, and the row marked as committed. -/
def commitStaged : SyncProg Unit :=
  (c.makeParents e).bind fun _ =>
  (storeTry (writeJournal (c.journalEntry e))).bind fun _ =>
  (c.removeOld e).bind fun _ =>
  (fsTry fun fs => fs.rename (c.stagedFile e) (c.finalDst e)).bind fun _ =>
  (c.settle e).bind fun _ => c.markCommitted e

def commitLoop : List StagedFile → SyncProg ℕ
  | [] => .ret 0
  | e :: staged =>
    (c.commitStaged e).bind fun _ =>
      (commitLoop staged).bind fun committed => .ret (committed + 1)

def resumeRow (row : CommitJournalEntry) : SyncProg ℕ :=
  let e : StagedFile := ⟨row.fileId, row.remotePath⟩
  let mark := storeTry (markJournalCommitted row.transferId row.fileId c.nowMs)
  match row.status with
  | .renamed => mark.bind fun _ => .ret 1
  | .pending =>
    (pathExists (c.stagedFile e)).bind fun staged =>
      if staged then
        (c.makeParents e).bind fun _ =>
        (fsTry fun fs => fs.rename (c.stagedFile e) (c.finalDst e)).bind fun _ =>
        mark.bind fun _ => .ret 1
      else
        (pathExists (c.finalDst e)).bind fun final =>
          if final then mark.bind fun _ => .ret 1
          else
            let stagedText := ("/" ++ "/".intercalate (c.stagedFile e)).quote
            let finalText := ("/" ++ "/".intercalate (c.finalDst e)).quote
            .fail (.reconstruction (s!"cannot resume commit for {row.remotePath}: neither staged " ++
              s!"file {stagedText} nor destination {finalText} exists"))
  | .committed => .ret 0

def resumeLoop : List CommitJournalEntry → SyncProg ℕ
  | [] => .ret 0
  | row :: rows =>
    if row.transferId ≠ c.transferId then resumeLoop rows
    else (c.resumeRow row).bind fun finalized =>
      (resumeLoop rows).bind fun later => .ret (finalized + later)

def resumeInterruptedCommit : SyncProg ℕ :=
  (Prog.attempt StateStoreError.database fun w : SyncWorld =>
    .ok (w.store.pendingJournal, w)).orFail .store |>.bind c.resumeLoop

/-! ## The contract -/

def HasRow (w : SyncWorld) : Prop :=
  ∃ row ∈ w.store.commitJournal, row.transferId = c.transferId ∧ row.fileId = e.fileId

structure Staged (staged : List StagedFile) (w : SyncWorld) : Prop where
  dst_dir : w.fs.node c.dstDir = some .dir
  object : ∀ e ∈ staged, ∃ x, w.fs.node (c.stagedFile e) = some x ∧ x ≠ .dir
  apart : ∀ e ∈ staged, ¬ c.stagingRoot <+: c.finalDst e ∧ ¬ c.finalDst e <+: c.stagingRoot
  paths : (staged.map fun e => components e.relPath).Nodup
  ids : (staged.map (·.fileId)).Nodup
  no_sidecar : ∀ e ∈ staged, ∀ n ∈ components e.relPath, ¬ xattrSuffix.toList <:+ n.toList
  transfer : w.store.hasTransfer c.transferId = true
  no_row : ∀ row ∈ w.store.commitJournal, row.transferId ≠ c.transferId

end CommitSetting

def contentOf : Node FileData → Node Bytes
  | .dir => .dir
  | .file d => .file d.bytes
  | .link t => .link t

def holds (fs : FileSystem FileData) (path : Path) : Option (Node Bytes) :=
  (fs.lstat path).toOption.map contentOf

namespace CommitSetting

variable (c : CommitSetting)

structure Recovered (staged : List StagedFile) (before after : SyncWorld) : Prop where
  rows : ∀ row ∈ after.store.pendingJournal, row.transferId ≠ c.transferId
  written : ∀ e ∈ staged, c.HasRow e after →
    holds after.fs (c.finalDst e) = holds before.fs (c.stagedFile e)
  unwritten : ∀ e ∈ staged, ¬ c.HasRow e after →
    holds after.fs (c.finalDst e) = holds before.fs (c.finalDst e)
  others : ∀ q x, before.fs.node q = some x → x ≠ .dir → ¬ c.stagingRoot <+: q →
    (∀ e ∈ staged, q ≠ c.finalDst e ∧ q ≠ sidecarPath (c.finalDst e)) →
    (after.fs.node q).map contentOf = some (contentOf x)

variable (staged : List StagedFile)

def Recovers (before crashed : SyncWorld) : Prop :=
  ∃ after finalized, c.resumeInterruptedCommit.works crashed = (after, .ok finalized) ∧
    c.Recovered staged before after

def Resumable (w : SyncWorld) : Prop :=
  ∀ crashed, (c.commitLoop staged).Leaves w crashed → c.Recovers staged w crashed

/-! ## The condition -/

def NoLinkedDirs (w : SyncWorld) : Prop :=
  ∀ e ∈ staged, FileSystem.Plain w.fs (c.finalDst e)

def IsLink (e : StagedFile) (w : SyncWorld) : Prop := ∃ t, w.fs.lstat (c.stagedFile e) = .ok (.link t)

/-- From its row to its rename a file does not meet a directory at its destination, and a link leads
to something from the staging directory; from the rename to the mark a link leads to something from its
destination. -/
structure StepClean (e : StagedFile) (s : SyncWorld) : Prop where
  before_rename : ∀ s1 s2 s', (c.makeParents e).works s = (s1, .ok ()) →
    (storeTry (writeJournal (c.journalEntry e))).works s1 = (s2, .ok ()) →
    (c.removeOld e).Leaves s2 s' →
    s'.fs.lstat (c.finalDst e) ≠ .ok .dir ∧
      (c.IsLink e s → s'.fs.pathExists (c.stagedFile e) = true)
  after_rename : ∀ s1 s2 s3 s4 s', (c.makeParents e).works s = (s1, .ok ()) →
    (storeTry (writeJournal (c.journalEntry e))).works s1 = (s2, .ok ()) →
    (c.removeOld e).works s2 = (s3, .ok ()) →
    (fsTry fun fs => fs.rename (c.stagedFile e) (c.finalDst e)).works s3 = (s4, .ok ()) →
    (c.settle e).Leaves s4 s' → c.IsLink e s → s'.fs.pathExists (c.finalDst e) = true

def CleanRun : List StagedFile → SyncWorld → Prop
  | [], _ => True
  | e :: staged, s =>
    c.StepClean e s ∧ ∀ s', (c.commitStaged e).works s = (s', .ok ()) → CleanRun staged s'

end CommitSetting

end Velcrux.Sync
