import Velcrux.Foundations.FileSystem
import Velcrux.Storage.Files
import Velcrux.Storage.Path

/-!
# The local backend on a directory tree

`LocalFilesystemBackend` (`storage/mod`) where directories and links matter: every virtual path is
joined to the root and handed to the file system, which follows the links that are on its way.
-/

namespace Velcrux.Storage

open Posix

inductive BackendError where
  | invalidPath
  | io (e : Errno)
deriving DecidableEq

namespace LocalLayout

variable {γ : Type} (l : LocalLayout) (fs : FileSystem γ)

def removeOld (path : Path) : FileSystem γ :=
  if (fs.lstat path).isOk then (fs.unlink path).toOption.getD fs else fs

def clearSite (path : Path) : Except Errno (FileSystem γ) :=
  match fs.createDirAll path.dropLast with
  | .error e => .error e
  | .ok fs => .ok (removeOld fs path)

def settle (r : Except Errno (FileSystem γ)) : FileSystem γ × Except BackendError Unit :=
  match r with
  | .error e => (fs, .error (.io e))
  | .ok fs => (fs, .ok ())

def createSymlink (dest : VPath) (target : String) : FileSystem γ × Except BackendError Unit :=
  if dest.str = "" then (fs, .error .invalidPath)
  else
    match clearSite fs (l.resolve dest.str) with
    | .error e => (fs, .error (.io e))
    | .ok fs => settle fs (fs.symlink target (l.resolve dest.str))

def createHardlink (dest src : VPath) : FileSystem γ × Except BackendError Unit :=
  if dest.str = "" ∨ src.str = "" then (fs, .error .invalidPath)
  else
    match clearSite fs (l.resolve dest.str) with
    | .error e => (fs, .error (.io e))
    | .ok fs => settle fs (fs.link (l.resolve src.str) (l.resolve dest.str))

def stat (p : VPath) : Except Errno Bool :=
  match fs.stat (l.resolve p.str) with
  | .ok (.file _) => .ok true
  | .ok _ => .ok false
  | .error .noent => .ok false
  | .error e => .error e

def openRead (p : VPath) : Except Errno γ := fs.readFile (l.resolve p.str)

def stage (transferId : TransferId) (p : VPath) (data : γ) :
    FileSystem γ × Except BackendError Unit :=
  match fs.createDirAll (l.stagingPath transferId p.str).dropLast with
  | .error e => (fs, .error (.io e))
  | .ok fs => settle fs (fs.writeFile (l.stagingPath transferId p.str) fun _ => data)

def commit (transferId : TransferId) (p : VPath) : FileSystem γ × Except BackendError Unit :=
  match fs.createDirAll (l.resolve p.str).dropLast with
  | .error e => (fs, .error (.io e))
  | .ok fs => settle fs (fs.rename (l.stagingPath transferId p.str) (l.resolve p.str))

end LocalLayout

/-! ## Names and files as a view of the tree -/

variable {fs : FileSystem Bytes} {t : FileTable}

/-- The tree has no links, and the table has the names and the contents of its files. -/
def FileTable.Shows (t : FileTable) (fs : FileSystem Bytes) : Prop :=
  ∀ p, t.names p = none ∧ (fs.node p = none ∨ fs.node p = some .dir) ∨
    ∃ inode, t.names p = some (.file inode) ∧ fs.node p = some (.file (t.content inode))

theorem FileTable.Shows.plain (h : t.Shows fs) (p : Path) : fs.Plain p := by
  intro q _ _ target hq
  rcases h q with ⟨-, hnone | hdir⟩ | ⟨inode, -, hfile⟩ <;> simp_all

theorem FileTable.Shows.readFile_iff (h : t.Shows fs) (p : Path) (data : Bytes) :
    fs.readFile p = .ok data ↔ t.readAt p = some data := by
  have hfollow : t.follow maxLinks p = p := follow_of_not_link (fun target hp => by
    rcases h p with ⟨hnone, -⟩ | ⟨inode, hfile, -⟩ <;> simp_all) _
  rw [FileSystem.readFile, readAt, fileAt, hfollow]
  rcases h p with ⟨hname, hnone | hdir⟩ | ⟨inode, hname, hfile⟩
  · obtain ⟨e, he⟩ := FileSystem.stat_of_none (h.plain p) hnone
    simp [hname, he]
  · simp [hname, FileSystem.stat_of_node hdir nofun]
  · simp [hname, FileSystem.stat_of_node hfile nofun]

theorem FileTable.Shows.rename (h : t.Shows fs) {src dst : Path} (hsrc : t.names src ≠ none)
    (hne : src ≠ dst) (hdst : fs.Bindable dst) :
    ∃ fs' t', fs.rename src dst = .ok fs' ∧ t.rename src dst = some t' ∧ t'.Shows fs' := by
  rcases h src with ⟨hnone, -⟩ | ⟨inode, hname, hfile⟩
  · exact absurd hnone hsrc
  obtain ⟨fs', hrename, hnode⟩ := FileSystem.rename_of_node hfile nofun hne hdst
  refine ⟨fs', _, hrename, by rw [FileTable.rename, hname]; rfl, fun p => ?_⟩
  rw [hnode p]
  by_cases hpdst : p = dst
  · exact .inr ⟨inode, by simp [hpdst]⟩
  · by_cases hpsrc : p = src
    · exact .inl (by simp [hpsrc, hne])
    · simpa [hpdst, hpsrc] using h p

end Velcrux.Storage
