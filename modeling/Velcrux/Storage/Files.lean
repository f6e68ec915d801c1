import Velcrux.Storage.Staging

/-!
# Names and files

Names lead to files or to symbolic links, a file is known by its inode, and an open file is written
through its inode, whatever its names are by then. Directories are implied by the names below them,
and a path is looked up as a whole: this is what the file system does where no directory on the way
is a link (`FileTable.Plain`).
-/

namespace Velcrux.Storage

open ByteFile

abbrev FilePath := List String

inductive Node where
  | file (inode : ℕ)
  | link (target : FilePath)
deriving DecidableEq

/-- The names and the contents of the files; inodes from `next` on are not in use. -/
structure FileTable where
  content : ℕ → Bytes
  next : ℕ
  names : FilePath → Option Node

namespace FileTable

variable (t : FileTable)

def empty : FileTable := ⟨fun _ => [], 0, fun _ => none⟩

def maxLinks : ℕ := 40

def follow : ℕ → FilePath → FilePath
  | 0, p => p
  | n + 1, p =>
    match t.names p with
    | some (.link target) => follow n target
    | _ => p

variable (p : FilePath)

def fileAt : Option ℕ :=
  match t.names (t.follow maxLinks p) with
  | some (.file inode) => some inode
  | _ => none

def readAt : Option Bytes := (t.fileAt p).map t.content

def setContent (inode : ℕ) (bytes : Bytes) : FileTable :=
  { t with content := fun i => if i = inode then bytes else t.content i }

/-- No directory on the way to `p` is a link, nor on the way to where `p` leads if it is one. -/
def Plain : Prop :=
  ∀ n q, q <+: t.follow n p → q ≠ t.follow n p → ∀ target, t.names q ≠ some (.link target)

variable (node : Option Node)

def setName : FileTable :=
  { t with names := fun q => if q = p then node else t.names q }

def openWrite : Option (ℕ × FileTable) :=
  match t.names (t.follow maxLinks p) with
  | some (.file inode) => some (inode, t)
  | some (.link _) => none
  | none =>
    some (t.next,
      { (t.setContent t.next []).setName (t.follow maxLinks p) (some (.file t.next)) with
        next := t.next + 1 })

def write (inode offset : ℕ) (data : Bytes) : FileTable :=
  t.setContent inode (writeAt (t.content inode) offset data)

def rename (src dst : FilePath) : Option FileTable :=
  (t.names src).map fun node => (t.setName src none).setName dst (some node)

def remove : FileTable := t.setName p none

def hardLink (src dst : FilePath) : Option FileTable :=
  (t.names src).map fun node => t.setName dst (some node)

def symLink (target dst : FilePath) : FileTable := t.setName dst (some (.link target))

@[simp] theorem content_setContent (inode : ℕ) (bytes : Bytes) (i : ℕ) :
    (t.setContent inode bytes).content i = if i = inode then bytes else t.content i := rfl

@[simp] theorem names_setContent (inode : ℕ) (bytes : Bytes) :
    (t.setContent inode bytes).names = t.names := rfl

@[simp] theorem next_setContent (inode : ℕ) (bytes : Bytes) :
    (t.setContent inode bytes).next = t.next := rfl

@[simp] theorem content_setName : (t.setName p node).content = t.content := rfl

@[simp] theorem next_setName : (t.setName p node).next = t.next := rfl

@[simp] theorem names_setName (q : FilePath) :
    (t.setName p node).names q = if q = p then node else t.names q := rfl

variable {t} {p : FilePath}

theorem follow_of_not_link (h : ∀ target, t.names p ≠ some (.link target)) (n : ℕ) :
    t.follow n p = p := by
  cases n with
  | zero => rfl
  | succ n =>
    unfold follow
    split
    · rename_i target hp
      exact absurd hp (h target)
    · rfl

theorem fileAt_of_file {inode : ℕ} (h : t.names p = some (.file inode)) : t.fileAt p = some inode := by
  unfold fileAt
  rw [follow_of_not_link (by simp [h]), h]

theorem fileAt_of_none (h : t.names p = none) : t.fileAt p = none := by
  unfold fileAt
  rw [follow_of_not_link (by simp [h]), h]

theorem openWrite_cases {inode : ℕ} {t' : FileTable}
    (hlink : ∀ target, t.names p ≠ some (.link target)) (h : t.openWrite p = some (inode, t')) :
    (t.names p = some (.file inode) ∧ t' = t) ∨
      (t.names p = none ∧ inode = t.next ∧
        t' = { (t.setContent t.next []).setName p (some (.file t.next)) with next := t.next + 1 }) := by
  unfold openWrite at h
  rw [follow_of_not_link hlink] at h
  split at h
  · rename_i ino hp
    obtain ⟨rfl, rfl⟩ : ino = inode ∧ t = t' := by simpa using h
    exact .inl ⟨hp, rfl⟩
  · cases h
  · rename_i hp
    obtain ⟨rfl, rfl⟩ : t.next = inode ∧ _ = t' := by simpa using h
    exact .inr ⟨hp, rfl, rfl⟩

end FileTable

/-- The directories of `LocalFilesystemBackend`; `ulid` is the text of a transfer id. -/
structure LocalLayout where
  root : FilePath
  staging : FilePath
  ulid : TransferId → String

namespace LocalLayout

variable (l : LocalLayout)

def components (p : String) : FilePath := (p.toList.splitOn '/').map String.ofList

def resolve (p : String) : FilePath := l.root ++ components p

def partialName (name : String) : String :=
  if (name.toList.drop 1).contains '.' then name ++ ".velcrux-partial"
  else name ++ "..velcrux-partial"

def safeTid (transferId : String) : String :=
  String.ofList (transferId.toList.map fun c => if c.isAlphanum then c else '_')

def stagingPath (transferId : TransferId) (p : String) : FilePath :=
  let path := l.staging ++ [safeTid (l.ulid transferId)] ++ components p
  path.dropLast ++ (path.getLast?.map partialName).toList

end LocalLayout

end Velcrux.Storage
