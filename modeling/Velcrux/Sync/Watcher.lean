import Mathlib.Data.List.AList

/-!
# The queue of the directory watcher

`sync/watcher`: changes wait in a queue that merges those of one path. The clock is read for every push.
-/

namespace Velcrux.Sync

inductive ChangeKind where
  | created
  | modified
  | deleted
deriving DecidableEq

structure FileChangeEvent where
  relPath : String
  kind : ChangeKind
  size : ℕ
  mtimeSecs : ℕ
  mtimeNanos : ℕ

structure ChangeBatch where
  batchId : ℕ
  created : List String
  modified : List String
  deleted : List String
  totalChanges : ℕ
  coalescedCount : ℕ
  durationMs : ℕ

/-- A pending event, with the time beside it. -/
abbrev Pending := FileChangeEvent × ℕ

structure DebounceQueue where
  pending : AList fun _ : String => Pending
  firstEventAt : Option ℕ
  coalescedCount : ℕ
  nextBatchId : ℕ

namespace DebounceQueue

/-- The entry of a path after a merge, and how many events more were merged. -/
def coalesced (existing : Pending) (event : FileChangeEvent) : Option Pending × ℕ :=
  match existing.1.kind, event.kind with
  | .created, .modified => (some ({ event with kind := .created }, existing.2), 1)
  | .created, .deleted => (none, 2)
  | .modified, .modified => (some (event, existing.2), 1)
  | .deleted, .created => (some ({ event with kind := .modified }, existing.2), 1)
  | _, _ => (some (event, existing.2), 0)

def entryAfter (coalesce : Bool) (entry : Option Pending) (event : FileChangeEvent) (now : ℕ) :
    Option Pending × ℕ :=
  match coalesce, entry with
  | true, some existing => coalesced existing event
  | _, _ => (some (event, now), 0)

variable (q : DebounceQueue)

def push (coalesce : Bool) (event : FileChangeEvent) (now : ℕ) : DebounceQueue :=
  let after := entryAfter coalesce (q.pending.lookup event.relPath) event now
  { q with
    pending := after.1.elim (q.pending.erase event.relPath) (q.pending.insert event.relPath)
    firstEventAt := some (q.firstEventAt.getD now)
    coalescedCount := q.coalescedCount + after.2 }

def pathsOf (kind : ChangeKind) : List String :=
  ((q.pending.entries.map fun x => x.2.1).filter (·.kind = kind)).map (·.relPath) |>.mergeSort

def drainAll (now : ℕ) : DebounceQueue × Option ChangeBatch :=
  if q.pending.entries = [] then ({ q with firstEventAt := none }, none)
  else (⟨∅, none, 0, q.nextBatchId + 1⟩, some {
    batchId := q.nextBatchId
    created := q.pathsOf .created
    modified := q.pathsOf .modified
    deleted := q.pathsOf .deleted
    totalChanges := (q.pathsOf .created).length + (q.pathsOf .modified).length +
      (q.pathsOf .deleted).length
    coalescedCount := q.coalescedCount
    durationMs := (now - q.firstEventAt.getD now) / 1000000 })

def drainReady (window now : ℕ) : DebounceQueue × Option ChangeBatch :=
  if q.pending.entries = [] then ({ q with firstEventAt := none }, none)
  else if q.pending.entries.all fun x => window ≤ now - x.2.2 then q.drainAll now
  else (q, none)

def new : DebounceQueue := ⟨∅, none, 0, 1⟩

variable (coalesce : Bool)

/-- The queue after some pushes, the latest first. -/
def pushed : List Pending → DebounceQueue
  | [] => new
  | x :: pushes => (pushed pushes).push coalesce x.1 x.2

def lastPush (pushes : List Pending) (path : String) : Option ℕ :=
  (pushes.find? fun x => x.1.relPath = path).map Prod.snd

def WaitsForQuiet (pushes : List Pending) : Prop :=
  ∀ window now, (∀ x ∈ pushes, x.2 ≤ now) →
    ((pushed coalesce pushes).drainReady window now).2.isSome →
    ∀ path ∈ (pushed coalesce pushes).pending, ∀ t, lastPush pushes path = some t → t + window ≤ now

/-- No event is merged into an entry with an older time. -/
def NoneMerged : List Pending → Prop
  | [] => True
  | x :: pushes => NoneMerged pushes ∧ (coalesce = true →
      ∀ existing ∈ (pushed coalesce pushes).pending.lookup x.1.relPath,
        existing.2 = x.2 ∨ existing.1.kind = .created ∧ x.1.kind = .deleted)

instance decidableNoneMerged : (pushes : List Pending) → Decidable (NoneMerged coalesce pushes)
  | [] => inferInstanceAs (Decidable True)
  | x :: pushes =>
    have := decidableNoneMerged pushes
    inferInstanceAs (Decidable (NoneMerged coalesce pushes ∧ (coalesce = true →
      ∀ existing ∈ (pushed coalesce pushes).pending.lookup x.1.relPath,
        existing.2 = x.2 ∨ existing.1.kind = .created ∧ x.1.kind = .deleted)))

end DebounceQueue

end Velcrux.Sync
