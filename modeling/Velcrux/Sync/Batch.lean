import Velcrux.Sync.ManifestDiff

/-!
# Planning batches of small files

`SmallFileBatchPlanner::plan` (`sync/batch`). Which paths are regular files in the source tree is a
parameter.
-/

namespace Velcrux.Sync

structure SmallFileBatchConfig where
  enabled : Bool
  thresholdBytes : UInt64
  maxBatchBytes : UInt64
  maxBatchFiles : ℕ

structure SmallFileBatch where
  batchId : ℕ
  actions : List FileAction
  totalBytes : UInt64

structure BatchedSyncPlan where
  batches : List SmallFileBatch
  individualActions : List FileAction
  smallFilesCount : ℕ
  batchContainersCount : ℕ
  roundtripsSaved : ℕ

namespace SmallFileBatchPlanner

/-- The bytes of the batch in progress are counted in 64 bits, in which a sum wraps around. -/
structure Planning where
  batches : List SmallFileBatch
  individualActions : List FileAction
  currentBatchActions : List FileAction
  currentBatchBytes : UInt64
  smallFilesCount : ℕ

def Planning.closeBatch (s : Planning) : Planning :=
  { s with
    batches := s.batches ++ [⟨s.batches.length, s.currentBatchActions, s.currentBatchBytes⟩]
    currentBatchActions := []
    currentBatchBytes := 0 }

def Planning.finish (s : Planning) : Planning :=
  if s.currentBatchActions ≠ [] then s.closeBatch else s

def Planning.makeRoom (config : SmallFileBatchConfig) (s : Planning) (size : UInt64) : Planning :=
  let wouldExceedBytes := config.maxBatchBytes < s.currentBatchBytes + size ∧
    s.currentBatchActions ≠ []
  let wouldExceedFiles := config.maxBatchFiles ≤ s.currentBatchActions.length
  if wouldExceedBytes ∨ wouldExceedFiles then s.closeBatch else s

variable (isRegularFile : String → Bool) (config : SmallFileBatchConfig)

def isBatched (a : FileAction) : Bool :=
  (a.action = .add || a.action = .modify) && isRegularFile a.relPath &&
    decide (a.srcSize ≤ config.thresholdBytes)

def Planning.add (s : Planning) (a : FileAction) : Planning :=
  if isBatched isRegularFile config a then
    let s := s.makeRoom config a.srcSize
    { s with
      currentBatchActions := s.currentBatchActions ++ [a]
      currentBatchBytes := s.currentBatchBytes + a.srcSize
      smallFilesCount := s.smallFilesCount + 1 }
  else { s with individualActions := s.individualActions ++ [a] }

def plan (actions : List FileAction) : BatchedSyncPlan :=
  if !config.enabled || actions.isEmpty then ⟨[], actions, 0, 0, 0⟩
  else
    let s := (actions.foldl (Planning.add isRegularFile config) ⟨[], [], [], 0, 0⟩).finish
    ⟨s.batches, s.individualActions, s.smallFilesCount, s.batches.length,
      s.smallFilesCount - s.batches.length⟩

end SmallFileBatchPlanner

def bytesOf (actions : List FileAction) : ℕ := (actions.map fun a => a.srcSize.toNat).sum

def BatchedSyncPlan.batchedActions (p : BatchedSyncPlan) : List FileAction :=
  p.batches.flatMap SmallFileBatch.actions

structure Partitions (config : SmallFileBatchConfig) (actions : List FileAction)
    (p : BatchedSyncPlan) : Prop where
  once : (p.batchedActions ++ p.individualActions).Perm actions
  batched : p.batchedActions.Sublist actions
  individual : p.individualActions.Sublist actions
  files : ∀ b ∈ p.batches, b.actions ≠ [] ∧ b.actions.length ≤ config.maxBatchFiles
  bytes : ∀ b ∈ p.batches, 1 < b.actions.length → bytesOf b.actions ≤ config.maxBatchBytes.toNat
  total : ∀ b ∈ p.batches, b.totalBytes.toNat = bytesOf b.actions
  smallFiles : p.smallFilesCount = p.batchedActions.length
  containers : p.batchContainersCount = p.batches.length

/-- The sizes of the small files, batched by their exact sums: whenever the next file is too much for
the open batch, of `files` files with `bytes` bytes, the sum is too much also in 64 bits. -/
def NoWrap (maxBytes maxFiles bytes files : ℕ) : List ℕ → Prop
  | [] => True
  | size :: sizes =>
    if files = 0 ∨ maxFiles ≤ files then NoWrap maxBytes maxFiles size 1 sizes
    else if bytes + size ≤ maxBytes then NoWrap maxBytes maxFiles (bytes + size) (files + 1) sizes
    else (2 ^ 64 ≤ bytes + size → maxBytes < bytes + size - 2 ^ 64) ∧
      NoWrap maxBytes maxFiles size 1 sizes

end Velcrux.Sync
