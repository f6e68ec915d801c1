import Velcrux.Transfer.Limiter
import Velcrux.Util

/-!
# The priority scheduler

`PriorityScheduler` (`transfer/scheduler`): deficit round robin over the four tiers.
-/

namespace Velcrux.Transfer

open Function

namespace TransferPriority

def weight : TransferPriority → ℕ
  | .urgent => 8
  | .high => 4
  | .normal => 2
  | .low => 1

def quantumBytes (p : TransferPriority) (baseQuantum : UInt64) : ℕ :=
  min (baseQuantum.toNat * p.weight) u64Max

end TransferPriority

structure ScheduledTask (α : Type) where
  id : UInt64
  priority : TransferPriority
  cost : UInt64
  payload : α
  pos : 0 < cost.toNat

structure PriorityScheduler (α : Type) where
  baseQuantum : UInt64
  base_pos : 0 < baseQuantum.toNat
  nextId : UInt64
  queues : TransferPriority → List (ScheduledTask α)
  deficits : TransferPriority → ℕ
  roundRobinIndex : ℕ

abbrev Returned (α : Type) := PriorityScheduler α × Option (ScheduledTask α)

namespace PriorityScheduler

open TransferPriority (all)

variable {α : Type}

def new (baseQuantum : UInt64) : PriorityScheduler α :=
  ⟨if baseQuantum = 0 then 64 * 1024 else baseQuantum, by
    split_ifs with h
    · decide
    · exact Nat.pos_of_ne_zero fun h0 => h (UInt64.toNat_inj.mp h0), 1, fun _ => [], fun _ => 0, 0⟩

variable (s : PriorityScheduler α)

def scheduled (payload : α) (priority : TransferPriority) (cost : UInt64) : ScheduledTask α :=
  ⟨s.nextId, priority, max cost 1, payload, by
    rw [UInt64.toNat_max]
    exact Nat.lt_of_lt_of_le (by decide) (Nat.le_max_right _ _)⟩

def push (task : ScheduledTask α) : PriorityScheduler α :=
  { s with
    nextId := s.nextId + 1
    queues := update s.queues task.priority (s.queues task.priority ++ [task]) }

def isEmpty : Bool := all.all fun p => (s.queues p).isEmpty

def turn : TransferPriority :=
  all.getD (s.roundRobinIndex % all.length) .urgent

def visit : Returned α :=
  let p := s.turn
  let s := { s with roundRobinIndex := (s.roundRobinIndex + 1) % all.length }
  match s.queues p with
  | [] => ({ s with deficits := update s.deficits p 0 }, none)
  | task :: rest =>
    let deficit := min (s.deficits p + p.quantumBytes s.baseQuantum) u64Max
    if task.cost.toNat ≤ deficit then
      ({ s with
        queues := update s.queues p rest
        deficits := update s.deficits p
          (if rest.isEmpty then 0 else deficit - task.cost.toNat) }, some task)
    else ({ s with deficits := update s.deficits p deficit }, none)

def serve (p : TransferPriority) (s : PriorityScheduler α) : Returned α :=
  match s.queues p with
  | [] => (s, none)
  | task :: rest =>
    ({ s with
      queues := update s.queues p rest
      deficits := update s.deficits p 0 }, some task)

def firstOf : List (PriorityScheduler α → Returned α) → PriorityScheduler α → Returned α
  | [], s => (s, none)
  | f :: fs, s =>
    match f s with
    | (s, some task) => (s, some task)
    | (s, none) => firstOf fs s

def popNext : Returned α :=
  if s.isEmpty then (s, none)
  else firstOf (List.replicate (all.length * 2) visit ++ all.map serve) s

def cancel (s : PriorityScheduler α) (taskId : UInt64) : List TransferPriority → Returned α
  | [] => (s, none)
  | p :: ps =>
    match (s.queues p).dropWhile (·.id ≠ taskId) with
    | task :: later =>
      ({ s with
        queues := update s.queues p ((s.queues p).takeWhile (·.id ≠ taskId) ++ later) },
        some task)
    | [] => cancel s taskId ps

end PriorityScheduler

inductive SchedulerCall (α : Type) where
  | push (payload : α) (priority : TransferPriority) (cost : UInt64)
  | popNext
  | cancel (taskId : UInt64)

def SchedulerCall.isPop {α : Type} : SchedulerCall α → Bool
  | .popNext => true
  | _ => false

/-- The log has what the calls have returned so far. -/
structure SchedulerLog (α : Type) where
  scheduler : PriorityScheduler α
  pushed : List (ScheduledTask α)
  popped : List (ScheduledTask α)
  cancelled : List (ScheduledTask α)

namespace SchedulerLog

variable {α : Type}

def call (l : SchedulerLog α) : SchedulerCall α → SchedulerLog α
  | .push payload priority cost =>
    let task := l.scheduler.scheduled payload priority cost
    { l with scheduler := l.scheduler.push task, pushed := l.pushed ++ [task] }
  | .popNext =>
    let r := l.scheduler.popNext
    { l with scheduler := r.1, popped := l.popped ++ r.2.toList }
  | .cancel taskId =>
    let r := l.scheduler.cancel taskId TransferPriority.all
    { l with scheduler := r.1, cancelled := l.cancelled ++ r.2.toList }

def run (l : SchedulerLog α) (calls : List (SchedulerCall α)) : SchedulerLog α := calls.foldl call l

def ofTier (p : TransferPriority) (ts : List (ScheduledTask α)) : List (ScheduledTask α) :=
  ts.filter fun t => t.priority = p

/-- The tasks of a tier: every one that was pushed has been popped or cancelled or is queued, once,
and they are popped in the order in which they were pushed. -/
structure Orderly (l : SchedulerLog α) (p : TransferPriority) : Prop where
  once : (ofTier p l.pushed).Perm
    (ofTier p l.popped ++ l.scheduler.queues p ++ ofTier p l.cancelled)
  ordered : (ofTier p l.popped ++ l.scheduler.queues p).Sublist (ofTier p l.pushed)

end SchedulerLog

end Velcrux.Transfer
