import Velcrux.Foundations.Transition
import Velcrux.Sync.Lock

/-!
# Concurrent calls of a lock manager with persistence

A call changes the table under the write lock, takes a snapshot under the read lock, and renames it
into place; the calls of several threads interleave between these steps. `save_to_persistence` keeps
its read guard until it returns, so no call changes the table between a snapshot and its rename.
-/

namespace Velcrux.Sync

/-- A call that has changed the table and has not returned; with a snapshot, it holds the read
guard. -/
structure SavingCall where
  id : ℕ
  acquires : Bool
  snapshot : Option LockReport
deriving DecidableEq

/-- The manager, the file on the disk, the calls under way and all tokens granted so far. -/
structure LockSystem where
  manager : DistributedLockManager
  file : Option LockReport
  saving : List SavingCall
  granted : List ℕ

/-- The atomic steps. `order` is the map in the order in which the step meets its entries. -/
inductive LockEvent where
  | update (id : ℕ) (call : LockCall) (order : LockMap)
  | snapshot (id : ℕ) (order : LockMap)
  | rename (id : ℕ)
  | saveFails (id : ℕ)

variable (s : LockSystem)

namespace LockSystem

def start (file : Option LockReport) (defaultTtlSecs maxTtlSecs : ℕ) : LockSystem where
  manager := .start file defaultTtlSecs maxTtlSecs
  file := file
  saving := []
  granted := []

def update (id : ℕ) (c : LockCall) (order : LockMap) : LockSystem :=
  let result := ({ s.manager with locks := order }).call c
  { s with
    manager := result.1
    saving := if result.2.2 then ⟨id, c.isAcquire, none⟩ :: s.saving else s.saving
    granted := (c.grantedToken result.2.1).toList ++ s.granted }

def take (order : LockMap) : LockReport := ({ s.manager with locks := order }).snapshot

def hold (id : ℕ) (report : LockReport) : List SavingCall :=
  s.saving.map fun p => if p.id = id then { p with snapshot := some report } else p

def finish (id : ℕ) : List SavingCall := s.saving.filter fun p => p.id ≠ id

def step : LockEvent → Option LockSystem
  | .update id c order =>
    -- the write lock is free only when no call holds a read guard
    if order.entries.Perm s.manager.locks.entries ∧
        ∀ p ∈ s.saving, p.id ≠ id ∧ p.snapshot = none then
      some (s.update id c order)
    else none
  | .snapshot id order =>
    match s.saving.find? fun p => p.id = id with
    | some ⟨_, _, none⟩ =>
      if order.entries.Perm s.manager.locks.entries then
        some { s with saving := s.hold id (s.take order) }
      else none
    | _ => none
  | .rename id =>
    match s.saving.find? fun p => p.id = id with
    | some ⟨_, _, some report⟩ =>
      some { s with file := some report, saving := s.finish id }
    | _ => none
  | .saveFails id =>
    -- `let _ =` drops the error, and the call returns
    match s.saving.find? fun p => p.id = id with
    | some _ => some { s with saving := s.finish id }
    | none => none

/-- The acquire calls have returned. -/
def Returned : Prop := ∀ p ∈ s.saving, p.acquires = false

instance (s : LockSystem) : Decidable s.Returned :=
  inferInstanceAs (Decidable (∀ p ∈ s.saving, p.acquires = false))

/-- A crash and `with_persistence` on the file that is left. -/
def restart (defaultTtlSecs maxTtlSecs : ℕ) : LockSystem :=
  start s.file defaultTtlSecs maxTtlSecs

end LockSystem

def LockEvent.isAcquire : LockEvent → Bool
  | .update _ c _ => c.isAcquire
  | _ => false

def LockEvent.isFailure : LockEvent → Bool
  | .saveFails _ => true
  | _ => false

abbrev LockSystem.Interleaves : List (LockSystem × LockEvent) → LockSystem → Prop :=
  Transition.Run LockSystem.step (fun _ _ => True) (· = s)

/-- **The contract.** Every token granted after the restart is above every token granted before. -/
def LockSystem.Fences (before after : LockSystem) : Prop :=
  ∀ t ∈ before.granted, ∀ t' ∈ after.granted, t < t'

instance (before after : LockSystem) : Decidable (before.Fences after) :=
  inferInstanceAs (Decidable (∀ t ∈ before.granted, ∀ t' ∈ after.granted, t < t'))

end Velcrux.Sync
