import Velcrux.Util

/-!
# `DistributedLockManager`

A map from resources to the leases on them, and the counter of the fencing tokens. Sums of `u64`
wrap as in a release build. A call may meet the entries of the map in any order.
-/

namespace Velcrux.Sync

inductive LockMode where
  | exclusive
  | shared
deriving DecidableEq

structure LeaseLock where
  lockId : String
  resource : String
  holderId : String
  mode : LockMode
  fencingToken : ℕ
  grantedAtSecs : ℕ
  expiresAtSecs : ℕ
  ttlSecs : ℕ
deriving DecidableEq

def LeaseLock.isExpired (l : LeaseLock) (nowSecs : ℕ) : Bool := l.expiresAtSecs ≤ nowSecs

def LeaseLock.remainingTtlSecs (l : LeaseLock) (nowSecs : ℕ) : ℕ := l.expiresAtSecs - nowSecs

inductive LockError where
  | resourceBusy (resource currentHolder : String) (mode : LockMode) (expiresInSecs : ℕ)
  | lockNotFound (lockId : String)
  | holderMismatch (lockId expectedHolder actualHolder : String)
  | lockExpired (lockId : String)
  | invalidResource (reason : String)
deriving DecidableEq

/-- `HashMap<String, Vec<LeaseLock>>`, its entries in the order of an iteration. -/
structure LockMap where
  entries : List (String × List LeaseLock)
  nodup : (entries.map Prod.fst).Nodup

namespace LockMap

def empty : LockMap := ⟨[], by simp⟩

def get (m : LockMap) (resource : String) : Option (List LeaseLock) :=
  (m.entries.find? fun e => e.1 = resource).map Prod.snd

def modify (m : LockMap) (resource : String) (f : List LeaseLock → List LeaseLock) : LockMap where
  entries := m.entries.map fun e => if e.1 = resource then (e.1, f e.2) else e
  nodup := by
    have hkeys : (Prod.fst ∘ fun e : String × List LeaseLock =>
        if e.1 = resource then (e.1, f e.2) else e) = Prod.fst := by
      funext e
      simp only [Function.comp_apply]
      split <;> rfl
    rw [List.map_map, hkeys]
    exact m.nodup

def remove (m : LockMap) (resource : String) : LockMap where
  entries := m.entries.filter fun e => e.1 ≠ resource
  nodup := m.nodup.sublist (List.filter_sublist.map _)

def push (m : LockMap) (resource : String) (lease : LeaseLock) : LockMap :=
  if h : resource ∈ m.entries.map Prod.fst then m.modify resource fun ls => ls ++ [lease]
  else
    { entries := m.entries ++ [(resource, [lease])]
      nodup := by
        rw [List.map_append]
        exact m.nodup.append (List.nodup_singleton _) (by simpa using h) }

def retain (m : LockMap) (f : List LeaseLock → List LeaseLock) : LockMap where
  entries := (m.entries.map fun e => (e.1, f e.2)).filter fun e => e.2 ≠ []
  nodup := by
    refine List.Nodup.sublist (List.filter_sublist.map _) ?_
    simpa [Function.comp_def] using m.nodup

def leases (m : LockMap) : List LeaseLock := m.entries.flatMap Prod.snd

def findLease (m : LockMap) (lockId : String) : Option (String × LeaseLock) :=
  m.entries.findSome? fun e => (e.2.find? fun l => l.lockId = lockId).map fun l => (e.1, l)

end LockMap

/-! ## The manager -/

structure LockReport where
  totalActiveLocks : ℕ
  totalExclusiveLocks : ℕ
  totalSharedLocks : ℕ
  highestFencingToken : ℕ
  activeLocks : List LeaseLock
deriving DecidableEq

/-- `DistributedLockManager`; `with_ttl` keeps the bounds of the two durations. -/
structure DistributedLockManager where
  locks : LockMap
  tokenCounter : ℕ
  defaultTtlSecs : ℕ
  maxTtlSecs : ℕ
  atLeastFive : 5 ≤ defaultTtlSecs
  defaultLeMax : defaultTtlSecs ≤ maxTtlSecs

variable (m : DistributedLockManager)

namespace DistributedLockManager

def new : DistributedLockManager where
  locks := .empty
  tokenCounter := 100
  defaultTtlSecs := 60
  maxTtlSecs := 3600
  atLeastFive := by decide
  defaultLeMax := by decide

def withTtl (defaultTtlSecs maxTtlSecs : ℕ) : DistributedLockManager :=
  { m with
    defaultTtlSecs := max defaultTtlSecs 5
    maxTtlSecs := max maxTtlSecs (max defaultTtlSecs 5)
    atLeastFive := Nat.le_max_right _ _
    defaultLeMax := Nat.le_max_right _ _ }

def loadFromPersistence : Option LockReport → DistributedLockManager
  | none => m
  | some report =>
    { m with
      locks := report.activeLocks.foldl (fun map l => map.push l.resource l) .empty
      tokenCounter := report.highestFencingToken }

def canonicalizeResource (resource : String) : Except LockError String :=
  let trimmed := trim resource.toList
  if trimmed = [] then .error (.invalidResource "resource name cannot be empty")
  else
    let cleaned := (trimmed.map fun c => if c = '\\' then '/' else c).dropWhile (· = '/')
    if cleaned = [] then .ok "/" else .ok (String.ofList ('/' :: cleaned))

def nextToken (counter : ℕ) : ℕ := (counter + 1) % 2 ^ 64

def conflict (resource : String) (mode : LockMode) (nowSecs : ℕ) :
    List LeaseLock → Option LockError
  | [] => none
  | existing :: leases =>
    match mode with
    | .exclusive =>
      some (.resourceBusy resource existing.holderId existing.mode
        (existing.remainingTtlSecs nowSecs))
    | .shared =>
      ((existing :: leases).find? fun l => l.mode = .exclusive).map fun ex =>
        .resourceBusy resource ex.holderId .exclusive (ex.remainingTtlSecs nowSecs)

def acquire (resource holderId : String) (mode : LockMode) (ttlSecs : Option ℕ) (nowSecs rand : ℕ) :
    DistributedLockManager × Except LockError LeaseLock :=
  match canonicalizeResource resource with
  | .error e => (m, .error e)
  | .ok canonResource =>
    if trim holderId.toList = [] then (m, .error (.invalidResource "holder_id cannot be empty"))
    else
      let effectiveTtl := max 5 (min (ttlSecs.getD m.defaultTtlSecs) m.maxTtlSecs)
      -- the expired leases of this resource only
      let locks := m.locks.modify canonResource fun ls => ls.filter fun l => !l.isExpired nowSecs
      match conflict canonResource mode nowSecs ((locks.get canonResource).getD []) with
      | some e => ({ m with locks := locks }, .error e)
      | none =>
        let token := nextToken m.tokenCounter
        let lease : LeaseLock :=
          { lockId := "lck-" ++ toString token ++ "-" ++ toString (rand % 2 ^ 16)
            resource := canonResource
            holderId := holderId
            mode := mode
            fencingToken := token
            grantedAtSecs := nowSecs
            expiresAtSecs := (nowSecs + effectiveTtl) % 2 ^ 64
            ttlSecs := effectiveTtl }
        ({ m with locks := locks.push canonResource lease, tokenCounter := token }, .ok lease)

def renew (lockId holderId : String) (extensionSecs : Option ℕ)
    (nowSecs : ℕ) : DistributedLockManager × Except LockError LeaseLock :=
  match m.locks.findLease lockId with
  | none => (m, .error (.lockNotFound lockId))
  | some (resource, lease) =>
    if lease.holderId ≠ holderId then
      (m, .error (.holderMismatch lockId lease.holderId holderId))
    else if lease.isExpired nowSecs then (m, .error (.lockExpired lockId))
    else
      let ext := max 5 (min (extensionSecs.getD lease.ttlSecs) m.maxTtlSecs)
      let extend := fun l : LeaseLock =>
        { l with expiresAtSecs := (nowSecs + ext) % 2 ^ 64, ttlSecs := ext }
      ({ m with
          locks := m.locks.modify resource fun ls =>
            ls.modify (ls.findIdx fun l => l.lockId = lockId) extend },
        .ok (extend lease))

def release (lockId holderId : String) : DistributedLockManager × Except LockError Bool :=
  match m.locks.findLease lockId with
  | none => (m, .error (.lockNotFound lockId))
  | some (resource, lease) =>
    if lease.holderId ≠ holderId then
      (m, .error (.holderMismatch lockId lease.holderId holderId))
    else
      let locks := m.locks.modify resource fun ls =>
        ls.eraseIdx (ls.findIdx fun l => l.lockId = lockId)
      ({ m with locks := if locks.get resource = some [] then locks.remove resource else locks },
        .ok true)

def purgeExpired (nowSecs : ℕ) : DistributedLockManager × ℕ :=
  ({ m with locks := m.locks.retain fun ls => ls.filter fun l => !l.isExpired nowSecs },
    (m.locks.leases.filter fun l => l.isExpired nowSecs).length)

def snapshot : LockReport where
  totalActiveLocks := m.locks.leases.length
  totalExclusiveLocks := (m.locks.leases.filter fun l => l.mode = .exclusive).length
  totalSharedLocks := (m.locks.leases.filter fun l => l.mode = .shared).length
  highestFencingToken := m.tokenCounter
  activeLocks := m.locks.leases.insertionSort fun l l' => l.fencingToken ≤ l'.fencingToken

end DistributedLockManager

inductive LockCall where
  | acquire (resource holderId : String) (mode : LockMode) (ttlSecs : Option ℕ) (nowSecs rand : ℕ)
  | renew (lockId holderId : String) (extensionSecs : Option ℕ) (nowSecs : ℕ)
  | release (lockId holderId : String) (nowSecs : ℕ)
  | purgeExpired (nowSecs : ℕ)

abbrev LockAnswer := Except LockError (Option LeaseLock)

namespace DistributedLockManager

def call : LockCall → DistributedLockManager × LockAnswer × Bool
  | .acquire resource holderId mode ttlSecs nowSecs rand =>
    let (m', answer) := m.acquire resource holderId mode ttlSecs nowSecs rand
    (m', answer.map some, answer.toOption.isSome)
  | .renew lockId holderId extensionSecs nowSecs =>
    let (m', answer) := m.renew lockId holderId extensionSecs nowSecs
    (m', answer.map some, answer.toOption.isSome)
  | .release lockId holderId _ =>
    let (m', answer) := m.release lockId holderId
    (m', answer.map fun _ => none, answer.toOption.isSome)
  | .purgeExpired nowSecs =>
    let (m', purged) := m.purgeExpired nowSecs
    (m', .ok none, decide (0 < purged))

inductive Step (m : DistributedLockManager) (c : LockCall) : DistributedLockManager → Prop
  | mk {locks : LockMap} (horder : locks.entries.Perm m.locks.entries) :
    Step m c (({ m with locks := locks }).call c).1

inductive Runs : DistributedLockManager → List LockCall → DistributedLockManager → Prop
  | nil (m : DistributedLockManager) : Runs m [] m
  | cons {m m1 m2 : DistributedLockManager} {c : LockCall} {calls : List LockCall}
      (hstep : m.Step c m1) (hrest : Runs m1 calls m2) : Runs m (c :: calls) m2

def start (file : Option LockReport) (defaultTtlSecs maxTtlSecs : ℕ) : DistributedLockManager :=
  (new.withTtl defaultTtlSecs maxTtlSecs).loadFromPersistence file

end DistributedLockManager

def LockCall.isAcquire : LockCall → Bool
  | .acquire .. => true
  | _ => false

def LockCall.grantedToken (c : LockCall) : LockAnswer → Option ℕ
  | .ok (some lease) => if c.isAcquire then some lease.fencingToken else none
  | _ => none

/-- **The contract.** The leases on a resource are all shared or one exclusive lease, and no two
leases of the table have one token. -/
structure LockMap.MutuallyExclusive (m : LockMap) : Prop where
  modes : ∀ resource leases, m.get resource = some leases →
    (∀ l ∈ leases, l.mode = .shared) ∨ ∃ l, leases = [l] ∧ l.mode = .exclusive
  tokens : (m.leases.map LeaseLock.fencingToken).Nodup

end Velcrux.Sync
