import Velcrux.Foundations.Transition

/-!
# Quotas and reservations

`LimitsManager`, its calls cut where they hold no lock.
-/

namespace Velcrux.Server

structure QuotaReservation where
  identity : String
  bytes : ℕ
deriving DecidableEq

structure QuotaCheck extends QuotaReservation where
  quota : ℕ
  usage : ℕ
deriving DecidableEq

structure LimitsManager where
  quotas : String → Option ℕ
  usage : String → ℕ
  reserved : String → ℕ
  checking : List QuotaCheck
  held : List QuotaReservation
  committing : List QuotaReservation

def satAdd (a b : ℕ) : ℕ := min (a + b) (2 ^ 64 - 1)

inductive LimitsEvent where
  | readUsage (r : QuotaReservation)
  | reserve (c : QuotaCheck)
  | unreserve (r : QuotaReservation)
  | addUsage (r : QuotaReservation)
  | release (r : QuotaReservation)
  | reload (quotas : String → Option ℕ)

namespace LimitsManager

variable (m : LimitsManager)

def takeOff (r : QuotaReservation) : LimitsManager :=
  { m with
    held := m.held.erase r
    reserved := Function.update m.reserved r.identity (m.reserved r.identity - r.bytes) }

/-- `reserve_quota` reads the usage before it locks the reservations, and `commit` releases the
reservation before it adds to the usage. -/
def step : LimitsEvent → Option LimitsManager
  | .readUsage r =>
    match m.quotas r.identity with
    | none => some { m with held := r :: m.held }
    | some q => some { m with checking := ⟨r, q, m.usage r.identity⟩ :: m.checking }
  | .reserve c =>
    if c ∈ m.checking then
      let m := { m with checking := m.checking.erase c }
      let current := m.reserved c.identity
      if satAdd (satAdd c.usage current) c.bytes > c.quota then some m
      else some { m with
        held := c.toQuotaReservation :: m.held
        reserved := Function.update m.reserved c.identity ((current + c.bytes) % 2 ^ 64) }
    else none
  | .unreserve r =>
    if r ∈ m.held then some { m.takeOff r with committing := r :: m.committing } else none
  | .addUsage r =>
    if r ∈ m.committing then
      some { m with
        committing := m.committing.erase r
        usage := Function.update m.usage r.identity (satAdd (m.usage r.identity) r.bytes) }
    else none
  | .release r => if r ∈ m.held then some (m.takeOff r) else none
  | .reload quotas => if m.checking = [] then some { m with quotas := quotas } else none

end LimitsManager

def total (rs : List QuotaReservation) (identity : String) : ℕ :=
  (rs.map fun r => if r.identity = identity then r.bytes else 0).sum

def WithinQuota (identity : String) (q : ℕ) (m : LimitsManager) : Prop :=
  (∀ i, m.reserved i = total m.held i) ∧ m.usage identity + m.reserved identity ≤ q

/-- A reservation is made for an identity with a quota, below the greatest `u64`, and no section of a commit
of the identity comes between the sections of a reservation, or the other way round. -/
def OneAtATime (m : LimitsManager) : LimitsEvent → Prop
  | .readUsage r => (∃ q, m.quotas r.identity = some q ∧ q < 2 ^ 64 - 1) ∧
      ∀ x ∈ m.committing, x.identity ≠ r.identity
  | .unreserve r | .addUsage r => ∀ c ∈ m.checking, c.identity ≠ r.identity
  | _ => True

def QuotaRun (identity : String) (q : ℕ) (ok : LimitsManager → LimitsEvent → Prop) :
    List (LimitsManager × LimitsEvent) → LimitsManager → Prop :=
  Transition.Run LimitsManager.step
    (fun m e => ok m e ∧ ∀ quotas, e = .reload quotas → quotas identity = some q)
    fun m => m.quotas identity = some q ∧ m.usage identity ≤ q ∧ (∀ i, m.reserved i = 0) ∧
      m.checking = [] ∧ m.held = [] ∧ m.committing = []

end Velcrux.Server
