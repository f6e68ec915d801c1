import Velcrux.Session.Proofs.ServerProofs
import Velcrux.State.Proofs.LedgerProofs

/-!
# Requests and the ledger

What a TRANSFER_CREATE does to the ledger: it is answered COMMITTED at once only when the entry for
its key is marked committed and has its path.
-/

namespace Velcrux.Session

open Protocol State Storage Transfer IdempotencyLedger

variable {cfg : ServerConfig} {ledger : Option IdempotencyLedger}
  {store : Option SqliteStateStore} {create : TransferCreate} {newId : TransferId}
variable {ledger' : Option IdempotencyLedger} {phase : Phase}

def Synced (ledger : Option IdempotencyLedger) (store : Option SqliteStateStore) : Prop :=
  ∀ l s, ledger = some l → store = some s → s.KeysIn fun key => key ≠ "" → l.Knows key

def LedgerMove (ledger ledger' : Option IdempotencyLedger) (create : TransferCreate)
    (phase : Phase) : Prop :=
  (ledger' = ledger ∧
    (keyedLedger ledger create = none ∧ phase ≠ .committed ∨ phase = .ended)) ∨
  ∃ l, keyedLedger ledger create = some l ∧
    ((ledger' = some l ∧ ∃ e, l.entries .server create.idempotencyKey = some e ∧
        e.remotePath = create.dstPath ∧ (phase = .committed → e.status = .committed)) ∨
      (phase ≠ .committed ∧ l.entries .server create.idempotencyKey = none ∧
        ∃ e, e.remotePath = create.dstPath ∧ e.status = .active ∧
          ledger' = some (l.insert .server create.idempotencyKey e)))

theorem keyedLedger_eq_some {l : IdempotencyLedger} :
    keyedLedger ledger create = some l ↔ create.idempotencyKey ≠ "" ∧ ledger = some l := by
  unfold keyedLedger
  split_ifs with h <;> simp [h]

theorem LedgerMove.entries {l' : IdempotencyLedger} (hm : LedgerMove ledger ledger' create phase)
    (hl' : ledger' = some l') :
    ∃ l, ledger = some l ∧
      (∀ key entry, l.entries .server key = some entry → l'.entries .server key = some entry) ∧
      ∀ key entry, l'.entries .server key = some entry → entry.status = .committed →
        l.entries .server key = some entry := by
  rcases hm with ⟨rfl, -⟩ | ⟨l, hl, ⟨rfl, -⟩ | ⟨-, hnone, e, -, hactive, rfl⟩⟩
  · exact ⟨l', hl', fun _ _ h => h, fun _ _ h _ => h⟩
  · obtain rfl : l = l' := by simpa using hl'
    exact ⟨l, (keyedLedger_eq_some.mp hl).2, fun _ _ h => h, fun _ _ h _ => h⟩
  · obtain rfl : l.insert .server create.idempotencyKey e = l' := by simpa using hl'
    refine ⟨l, (keyedLedger_eq_some.mp hl).2, fun key entry h => ?_, fun key entry h hc => ?_⟩
    · rw [entries_insert, if_neg]
      · exact h
      · rintro rfl
        exact absurd h (by simp [hnone])
    · rw [entries_insert] at h
      split_ifs at h
      · obtain rfl : e = entry := by simpa using h
        exact absurd hc (by simp [hactive])
      · exact h

theorem LedgerMove.entry {l' : IdempotencyLedger} (hm : LedgerMove ledger ledger' create phase)
    (hl' : ledger' = some l') (hkey : create.idempotencyKey ≠ "") (hphase : phase ≠ .ended) :
    ∃ entry, l'.entries .server create.idempotencyKey = some entry ∧
      entry.remotePath = create.dstPath ∧ (phase = .committed → entry.status = .committed) := by
  rcases hm with ⟨rfl, ⟨hl, -⟩ | hended⟩ | ⟨l, hl, ⟨rfl, e, he, hpath, hc⟩ | ⟨hc, -, e, hpath, -, rfl⟩⟩
  · exact absurd (keyedLedger_eq_some.mpr ⟨hkey, hl'⟩) (by simp [hl])
  · exact absurd hended hphase
  · obtain rfl : l = l' := by simpa using hl'
    exact ⟨e, he, hpath, hc⟩
  · obtain rfl : l.insert .server create.idempotencyKey e = l' := by simpa using hl'
    exact ⟨e, by simp [entries_insert], hpath, fun h => absurd h hc⟩

theorem LedgerMove.keyed (hm : LedgerMove ledger ledger' create .committed) :
    ∃ l, create.idempotencyKey ≠ "" ∧ ledger = some l ∧ ledger' = some l := by
  rcases hm with ⟨-, ⟨-, hc⟩ | hended⟩ | ⟨l, hl, ⟨rfl, -⟩ | ⟨hc, -⟩⟩
  · exact absurd rfl hc
  · cases hended
  · exact ⟨l, (keyedLedger_eq_some.mp hl).1, (keyedLedger_eq_some.mp hl).2, rfl⟩
  · exact absurd rfl hc

variable (debug : String → String)

theorem ledgerGate_eq (ledger : Option IdempotencyLedger)
    (store : Option SqliteStateStore) (create : TransferCreate) (newId : TransferId) :
    (∀ a, (ledgerGate debug ledger store create newId).1 = some a ↔
      (selectTransfer debug ledger store create newId 0).1 = .answer a) ∧
    (ledgerGate debug ledger store create newId).2 =
      (selectTransfer debug ledger store create newId 0).2 := by
  unfold ledgerGate selectTransfer
  cases keyedLedger ledger create with
  | none => dsimp only; split <;> simp
  | some l =>
    dsimp only
    generalize l.evaluateTransferCreate .server create.idempotencyKey create.dstPath 0 store newId = r
    obtain ⟨action, l'⟩ := r
    cases action <;> simp

def Phase.Fits (op : TransferOp) : Phase → Prop
  | .applied | .committed | .ended => True
  | .executing => op ≠ .upload ∧ op ≠ .download
  | .downloading => op = .download
  | _ => op = .upload

/-- What a TRANSFER_CREATE does: it adds a task in a phase that fits its operation, moves the ledger
accordingly and, when the request goes on as a transfer, writes its record. -/
structure Started (cfg : ServerConfig) (w w' : World) (i : ℕ) (create : TransferCreate)
    (task : Task) : Prop where
  tasks : w'.tasks = fun j => if j = i then some task else w.tasks j
  create_eq : task.create = create
  viaResume_eq : task.viaResume = false
  staged_eq : task.staged = none
  fits : task.phase.Fits create.op
  early : task.phase = .selected ∨ task.phase = .downloading ∨ task.phase = .executing ∨
    task.phase = .committed ∨ task.phase = .ended
  ledger : LedgerMove w.ledger w'.ledger create task.phase
  store : w'.store = w.store ∨ task.phase ≠ .ended ∧ ∃ total bytesReusable now,
    w'.store = w.store.map (register cfg create task.transferId total bytesReusable now)

end Velcrux.Session
