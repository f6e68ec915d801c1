import Velcrux.Foundations.Transition

/-!
# The limiter of concurrent transfers

`ConcurrentTransferLimiter` (`transfer/scheduler`). A waiter may be cancelled before or after its
message has come.
-/

namespace Velcrux.Transfer

inductive TransferPriority where
  | urgent
  | high
  | normal
  | low
deriving DecidableEq

def TransferPriority.all : List TransferPriority := [.urgent, .high, .normal, .low]

/-- The waiters are numbered. `awaiting` are those alive without a message, `notified` those alive with
one, `releases` the spawned tasks that have not run. -/
structure TransferLimiter where
  maxConcurrency : ℕ
  activeCount : ℕ
  waiters : TransferPriority → List ℕ
  awaiting : List ℕ
  notified : List ℕ
  permits : ℕ
  releases : ℕ
  next : ℕ

inductive LimiterEvent where
  | acquire (priority : TransferPriority)
  | resume (i : ℕ)
  | cancel (i : ℕ)
  | dropPermit
  | release

namespace TransferLimiter

def new (maxConcurrency : ℕ) : TransferLimiter :=
  ⟨max maxConcurrency 1, 0, fun _ => [], [], [], 0, 0, 0⟩

/-- The queues in the order of priority, each from its front, up to the first waiter that is alive. -/
def notifyFirst (awaiting : List ℕ) (waiters : TransferPriority → List ℕ) :
    List TransferPriority → Option ℕ × (TransferPriority → List ℕ)
  | [] => (none, waiters)
  | p :: ps =>
    match (waiters p).dropWhile (· ∉ awaiting) with
    | i :: later => (some i, Function.update waiters p later)
    | [] => notifyFirst awaiting (Function.update waiters p []) ps

def handOver (s : TransferLimiter) : TransferLimiter :=
  match notifyFirst s.awaiting s.waiters TransferPriority.all with
  | (some i, waiters) =>
    { s with waiters := waiters, awaiting := s.awaiting.erase i, notified := i :: s.notified }
  | (none, waiters) => { s with waiters := waiters, activeCount := s.activeCount - 1 }

/-- A section under the lock is one step: `acquire` up to its permit or its place in a queue, and
the task that the drop of a permit spawns. -/
def step (s : TransferLimiter) : LimiterEvent → Option TransferLimiter
  | .acquire priority =>
    if s.activeCount < s.maxConcurrency then
      some { s with activeCount := s.activeCount + 1, permits := s.permits + 1 }
    else
      some { s with
        waiters := Function.update s.waiters priority (s.waiters priority ++ [s.next])
        awaiting := s.next :: s.awaiting
        next := s.next + 1 }
  | .resume i =>
    if i ∈ s.notified then
      some { s with notified := s.notified.erase i, permits := s.permits + 1 }
    else none
  | .cancel i =>
    if i ∈ s.notified then some { s with notified := s.notified.erase i }
    else if i ∈ s.awaiting then some { s with awaiting := s.awaiting.erase i }
    else none
  | .dropPermit =>
    if s.permits = 0 then none
    else some { s with permits := s.permits - 1, releases := s.releases + 1 }
  | .release =>
    if s.releases = 0 then none else some (handOver { s with releases := s.releases - 1 })

def SlotsKept (n : ℕ) (s : TransferLimiter) : Prop :=
  s.permits ≤ max n 1 ∧ (s.releases = 0 → s.activeCount = s.permits + s.notified.length ∧
    (s.permits = 0 → s.awaiting = [] → s.notified = [] → s.activeCount = 0))

def loses (x : TransferLimiter × LimiterEvent) : Bool :=
  match x.2 with
  | .cancel i => i ∈ x.1.notified
  | _ => false

def LimiterRun (n : ℕ) : List (TransferLimiter × LimiterEvent) → TransferLimiter → Prop :=
  Transition.Run step (fun _ _ => True) (· = new n)

end TransferLimiter

end Velcrux.Transfer
