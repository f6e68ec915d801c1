import Velcrux.Foundations.MergeDiff
import Velcrux.Manifest.Scanner

/-!
# The streaming manifest diff

`diff_manifest_readers` (`sync/directory`): two manifest readers are run side by side, with the entry
that each of them returned last at hand, and the paths of the two entries are compared as strings.
-/

namespace Velcrux.Sync

open Manifest ManifestReader
open MergeDiff (FollowsShared)
open Protocol (Compressor)
open Wire

inductive FileActionType where
  | unchanged
  | modify
  | add
  | delete
deriving DecidableEq

structure FileAction where
  relPath : String
  action : FileActionType
  srcSize : UInt64
  dstSize : UInt64
  srcHash : Option Hash
  bytesToTransfer : UInt64
  bytesReusable : UInt64
deriving DecidableEq

/-- `DirectoryDiffSummary`, without the percentage computed from the last two fields. The sums of
sizes wrap around. -/
structure DirectoryDiffSummary where
  filesUnchanged : ℕ
  filesModified : ℕ
  filesAdded : ℕ
  filesDeleted : ℕ
  dataPresent : UInt64
  dataToTransfer : UInt64
deriving DecidableEq

def isSame (sf df : FileEntry) : Bool :=
  sf.flags = df.flags && sf.size = df.size && sf.fileHash = df.fileHash && sf.xattrs = df.xattrs &&
    sf.symlinkTarget = df.symlinkTarget && sf.hardlinkTarget = df.hardlinkTarget

def compareAction (sf df : FileEntry) : FileAction :=
  if isSame sf df then ⟨sf.path.str, .unchanged, sf.size, df.size, some sf.fileHash, 0, sf.size⟩
  else ⟨sf.path.str, .modify, sf.size, df.size, some sf.fileHash, sf.size, 0⟩

def addAction (sf : FileEntry) : FileAction :=
  ⟨sf.path.str, .add, sf.size, 0, some sf.fileHash, sf.size, 0⟩

def deleteAction (df : FileEntry) : FileAction := ⟨df.path.str, .delete, 0, df.size, none, 0, 0⟩

namespace DirectoryDiffSummary

def zero : DirectoryDiffSummary := ⟨0, 0, 0, 0, 0, 0⟩

def record (s : DirectoryDiffSummary) (a : FileAction) : DirectoryDiffSummary :=
  match a.action with
  | .unchanged =>
    { s with filesUnchanged := s.filesUnchanged + 1, dataPresent := s.dataPresent + a.srcSize }
  | .modify =>
    { s with filesModified := s.filesModified + 1, dataToTransfer := s.dataToTransfer + a.srcSize }
  | .add =>
    { s with filesAdded := s.filesAdded + 1, dataToTransfer := s.dataToTransfer + a.srcSize }
  | .delete => { s with filesDeleted := s.filesDeleted + 1 }

end DirectoryDiffSummary

/-! ## The loop -/

section Potential

variable {Z : Compressor} {H : HashFn} {r r' : ManifestReader}

def potential (r : ManifestReader) : ℕ :=
  r.rest.length * (manifestBatchSize + 1) + r.entriesRemainingInBatch

theorem potential_loadBatch (hlen : ¬ r.rest.length < 16) (h : r.loadBatch Z = .ok () r') :
    potential r' ≤ potential r := by
  have hrest := loadBatch_rest Z h
  have hcount : r'.entriesRemainingInBatch ≤ manifestBatchSize := by
    unfold loadBatch at h
    dsimp only at h
    split_ifs at h with hentries
    split at h
    · cases h
    · split_ifs at h
      cases h
      exact not_lt.mp hentries
  simp only [potential, manifestBatchSize] at hcount ⊢
  omega

theorem potential_fill {more : Bool} (h : r.fill Z H = .ok more r') :
    potential r' ≤ potential r ∧ (more = true → r'.entriesRemainingInBatch ≠ 0) := by
  induction r using fill.induct Z with
  | case1 r hleft =>
    rw [fill, if_pos hleft] at h
    cases h
    exact ⟨le_rfl, fun _ => hleft⟩
  | case2 r hnone hlen =>
    rw [fill, checkHash] at h
    split_ifs at h
    cases h
    simp [potential]
  | case3 r hnone hlen e r1 hload =>
    rw [fill, if_neg hnone, dif_neg hlen] at h
    split at h
    · cases h
    · simp_all
  | case4 r hnone hlen r1 hload _ ih =>
    rw [fill, if_neg hnone, dif_neg hlen] at h
    split at h
    · cases h
    · rename_i r2 hload2
      rw [hload] at hload2
      cases hload2
      have hlater := ih h
      exact ⟨hlater.1.trans (potential_loadBatch hlen hload), hlater.2⟩

theorem potential_nextEntry {entry : Option FileEntry} (h : r.nextEntry Z H = .ok entry r') :
    potential r' + (if entry.isSome then 1 else 0) ≤ potential r := by
  unfold nextEntry at h
  split_ifs at h
  · cases h
    simp
  · split at h
    · cases h
    · rename_i r1 hfill
      cases h
      simpa using (potential_fill hfill).1
    · rename_i r1 hfill
      obtain ⟨hle, hleft⟩ := potential_fill hfill
      unfold decodeEntry at h
      dsimp only at h
      split_ifs at h
      split at h
      · cases h
      · cases h
        have hleft := hleft rfl
        simp only [potential, Option.isSome_some, if_true] at hle ⊢
        omega

end Potential

structure Cursor where
  reader : ManifestReader
  current : Option FileEntry

namespace Cursor

variable {Z : Compressor} {H : HashFn} {c c' : Cursor}

def advance (Z : Compressor) (H : HashFn) (c : Cursor) : Except VelcruxError Cursor :=
  match c.reader.nextEntry Z H with
  | .error e _ => .error e
  | .ok entry reader => .ok ⟨reader, entry⟩

def work (c : Cursor) : ℕ := potential c.reader + if c.current.isSome then 1 else 0

theorem work_advance (hcurrent : c.current.isSome) (h : c.advance Z H = .ok c') :
    c'.work < c.work := by
  unfold advance at h
  split at h
  · cases h
  · rename_i entry reader hnext
    cases h
    have hle := potential_nextEntry hnext
    rw [work, work, if_pos hcurrent]
    dsimp only
    omega

end Cursor

abbrev DiffResult := List FileAction × Except VelcruxError DirectoryDiffSummary

def emit (a : FileAction) (later : DiffResult) : DiffResult := (a :: later.1, later.2)

def diffLoop (Z : Compressor) (H : HashFn) (src dst : Cursor) (s : DirectoryDiffSummary) :
    DiffResult :=
  match hsrc : src.current, hdst : dst.current with
  | none, none => ([], .ok s)
  | some sf, some df =>
    if sf.path.str = df.path.str then
      let a := compareAction sf df
      match hs : src.advance Z H with
      | .error e => ([a], .error e)
      | .ok src' =>
        match hd : dst.advance Z H with
        | .error e => ([a], .error e)
        | .ok dst' =>
          have := Cursor.work_advance (by rw [hsrc]; rfl) hs
          have := Cursor.work_advance (by rw [hdst]; rfl) hd
          emit a (diffLoop Z H src' dst' (s.record a))
    else if sf.path.str < df.path.str then
      match hs : src.advance Z H with
      | .error e => ([addAction sf], .error e)
      | .ok src' =>
        have := Cursor.work_advance (by rw [hsrc]; rfl) hs
        emit (addAction sf) (diffLoop Z H src' dst (s.record (addAction sf)))
    else
      match hd : dst.advance Z H with
      | .error e => ([deleteAction df], .error e)
      | .ok dst' =>
        have := Cursor.work_advance (by rw [hdst]; rfl) hd
        emit (deleteAction df) (diffLoop Z H src dst' (s.record (deleteAction df)))
  | some sf, none =>
    match hs : src.advance Z H with
    | .error e => ([addAction sf], .error e)
    | .ok src' =>
      have := Cursor.work_advance (by rw [hsrc]; rfl) hs
      emit (addAction sf) (diffLoop Z H src' dst (s.record (addAction sf)))
  | none, some df =>
    match hd : dst.advance Z H with
    | .error e => ([deleteAction df], .error e)
    | .ok dst' =>
      have := Cursor.work_advance (by rw [hdst]; rfl) hd
      emit (deleteAction df) (diffLoop Z H src dst' (s.record (deleteAction df)))
termination_by src.work + dst.work
decreasing_by all_goals omega

def diffManifestReaders (Z : Compressor) (H : HashFn) (srcReader dstReader : ManifestReader) :
    DiffResult :=
  match Cursor.advance Z H ⟨srcReader, none⟩ with
  | .error e => ([], .error e)
  | .ok src =>
    match Cursor.advance Z H ⟨dstReader, none⟩ with
    | .error e => ([], .error e)
    | .ok dst => diffLoop Z H src dst .zero

def diffManifestSpillFiles (Z : Compressor) (H : HashFn) (srcSpill : Bytes) (srcHash : Hash)
    (dstSpill : Bytes) (dstHash : Hash) : DiffResult :=
  match openSpill srcSpill srcHash with
  | .error e => ([], .error e)
  | .ok srcReader =>
    match openSpill dstSpill dstHash with
    | .error e => ([], .error e)
    | .ok dstReader => diffManifestReaders Z H srcReader dstReader

/-! ## The contract -/

def paths (entries : List FileEntry) : List String := entries.map fun e => e.path.str

def entryAt (entries : List FileEntry) (path : String) : Option FileEntry :=
  entries.find? fun e => e.path.str = path

def Agree (sf df : FileEntry) : Prop :=
  sf.flags = df.flags ∧ sf.size = df.size ∧ sf.fileHash = df.fileHash ∧ sf.xattrs = df.xattrs ∧
    sf.symlinkTarget = df.symlinkTarget ∧ sf.hardlinkTarget = df.hardlinkTarget

instance (sf df : FileEntry) : Decidable (Agree sf df) := by
  unfold Agree
  infer_instance

def actionFor (src dst : List FileEntry) (path : String) : Option FileActionType :=
  match entryAt src path, entryAt dst path with
  | none, none => none
  | some _, none => some .add
  | none, some _ => some .delete
  | some sf, some df => some (if Agree sf df then .unchanged else .modify)

def countOf (kind : FileActionType) (actions : List FileAction) : ℕ :=
  actions.countP fun a => a.action = kind

structure IsTreeDiff (src dst : List FileEntry) (actions : List FileAction)
    (summary : DirectoryDiffSummary) : Prop where
  once : ∀ path, (actions.map (·.relPath)).count path =
    if path ∈ paths src ∨ path ∈ paths dst then 1 else 0
  kind : ∀ a ∈ actions, some a.action = actionFor src dst a.relPath
  unchanged : summary.filesUnchanged = countOf .unchanged actions
  modified : summary.filesModified = countOf .modify actions
  added : summary.filesAdded = countOf .add actions
  deleted : summary.filesDeleted = countOf .delete actions

def DiffsTrees (Z : Compressor) (H : HashFn) (srcTree dstTree : DirectoryTree)
    (srcManifest dstManifest : ManifestBegin × ManifestEnd × Bytes) : Prop :=
  ∃ src dst actions summary,
    srcTree.entries H = .ok src ∧ dstTree.entries H = .ok dst ∧
    diffManifestSpillFiles Z H srcManifest.2.2 srcManifest.1.manifestHash dstManifest.2.2
      dstManifest.1.manifestHash = (actions, .ok summary) ∧
    IsTreeDiff src dst actions summary

structure Readable (entries : List FileEntry) : Prop where
  checked : ∀ e ∈ entries, e.Checked
  batch_bytes : ∀ b ∈ batches entries,
    (b.flatMap encodeFileEntry).length ≤ maxBatchDecompressedBytes

structure OrderedAlike (src dst : List FileEntry) : Prop where
  source : FollowsShared (paths dst) (paths src)
  destination : FollowsShared (paths src) (paths dst)

def Diffable (H : HashFn) (srcTree dstTree : DirectoryTree) : Prop :=
  ∃ src dst, srcTree.entries H = .ok src ∧ dstTree.entries H = .ok dst ∧
    Readable src ∧ Readable dst ∧ OrderedAlike src dst

end Velcrux.Sync
