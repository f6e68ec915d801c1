import Velcrux.Session.Proofs.CommittingProofs
import Velcrux.Session.Proofs.CreateProofs

/-!
# What a step of a task can do

One inversion of the step function: how the phase of the task can have come about, which files it
touches, and what it does to the ledger and the state store.
-/

namespace Velcrux.Session

open Protocol State Storage Transfer Transition Option Phase World Session.Task

variable {cfg : ServerConfig} {H : HashFn}

inductive Effect (cfg : ServerConfig) (w w' : World) (i : ℕ) (task task' : Task) (e : Event) : Prop
  | quiet (hcontent : w'.files.content = w.files.content) (hnext : w'.files.next = w.files.next)
      (hstaged : task'.staged = task.staged) (hholds : task'.holds = true → task.holds = true)
  | write (inode : ℕ) (hstaged : task.staged = some inode) (hstaged' : task'.staged = some inode)
      (hholds : task.holds = true) (hholds' : task'.holds = true)
      (hnext : w'.files.next = w.files.next)
      (hcontent : ∀ k, k ≠ inode → w'.files.content k = w.files.content k)
  | opens (inode : ℕ) (t : FileTable) (hevent : e = .prestage i ∨ ∃ n, e = .begin i n)
      (hopen : w.files.openWrite (cfg.stagingPath task) = some (inode, t))
      (hstaged' : task'.staged = some inode) (hholds' : task'.holds = true)
      (hnext : w'.files.next = t.next)
      (hcontent : ∀ k, k ≠ inode → w'.files.content k = t.content k)

def PhaseMove (cfg : ServerConfig) (H : HashFn) (w w' : World) (i : ℕ) (task : Task) (e : Event) :
    Phase → Prop
  | .hashingExisting inode size read =>
    (e = .openExisting i ∧ w.files.fileAt (cfg.destPath task) = some inode ∧ read = []) ∨
      ∃ read0 n, task.phase = .hashingExisting inode size read0 ∧
        readBlock w.files inode read0 n = some read
  | .identical => ∃ inode size read n, task.phase = .hashingExisting inode size read ∧
      readBlock w.files inode read n = none ∧ H read = task.create.fileHash
  | .applied =>
    task.phase = .identical ∨ task.phase = .downloading ∨
      (∃ verifyHash zero, task.phase = .awaitCommit verifyHash zero ∧
        w.files.rename (cfg.stagingPath task) (cfg.destPath task) = some w'.files) ∨
      ∃ ok, e = .execute i ok ∧ task.phase = .executing ∧
        executed cfg w.files task ok = some w'.files
  | .committed => task.phase = .applied
  | _ => True

def KeepsKeys (store store' : Option SqliteStateStore) : Prop :=
  ∀ P : String → Prop, (∀ s, store = some s → s.KeysIn P) → ∀ s, store' = some s → s.KeysIn P

structure TaskMove (cfg : ServerConfig) (H : HashFn) (w w' : World) (i : ℕ) (task task' : Task)
    (e : Event) : Prop where
  tasks : w'.tasks = fun j => if j = i then some task' else w.tasks j
  create_eq : task'.create = task.create
  viaResume_eq : task'.viaResume = task.viaResume
  fits : ∀ op, task.phase.Fits op → task'.phase.Fits op
  stays : task.phase = .ended → task'.phase = .ended
  phase : task'.phase = task.phase ∨ PhaseMove cfg H w w' i task e task'.phase
  effect : Effect cfg w w' i task task' e
  ledger : w'.ledger = w.ledger ∨ task.create.idempotencyKey ≠ "" ∧
    (w'.ledger = w.ledger.map (·.markResumable .server task.create.idempotencyKey) ∨
      w'.ledger = w.ledger.map (·.markCommitted .server task.create.idempotencyKey 1) ∧
        task.viaResume = false ∧ (task'.phase = .applied ∨ task'.phase = .committed))
  store : KeepsKeys w.store w'.store

/-! ## Ledger and state store -/

theorem KeepsKeys.refl (store : Option SqliteStateStore) : KeepsKeys store store := fun _ h => h

theorem KeepsKeys.trans {a b c : Option SqliteStateStore} (hab : KeepsKeys a b)
    (hbc : KeepsKeys b c) : KeepsKeys a c := fun P h => hbc P (hab P h)

variable (w : World)

theorem keepsKeys_withStore {f : SqliteStateStore → SqliteStateStore}
    (hf : ∀ (P : String → Prop) s, s.KeysIn P → (f s).KeysIn P) :
    KeepsKeys w.store (w.withStore f).store := by
  intro P h s hs
  obtain ⟨s0, hs0, rfl⟩ := map_eq_some_iff.mp hs
  exact hf P s0 (h s0 hs0)

theorem keepsKeys_withRecord (transferId : TransferId) {f : TransferRecord → TransferRecord}
    (hf : ∀ r, (f r).role = r.role ∧ (f r).idempotencyKey = r.idempotencyKey) :
    KeepsKeys w.store (w.withRecord transferId f).store := by
  refine keepsKeys_withStore w fun P s hs => ?_
  split
  · rename_i r hr
    refine hs.updateTransfer fun hrole => ?_
    rw [(hf r).2]
    exact hs r (SqliteStateStore.mem_of_getTransfer hr) ((hf r).1 ▸ hrole)
  · exact hs

@[simp] theorem World.store_withLedger (create : TransferCreate)
    (f : IdempotencyLedger → IdempotencyLedger) : (w.withLedger create f).store = w.store := by
  unfold withLedger
  split_ifs <;> rfl

theorem World.ledger_withLedger (create : TransferCreate)
    (f : IdempotencyLedger → IdempotencyLedger) :
    (w.withLedger create f).ledger = w.ledger ∨
      create.idempotencyKey ≠ "" ∧ (w.withLedger create f).ledger = w.ledger.map f := by
  unfold withLedger
  split_ifs with h
  · exact .inl rfl
  · exact .inr ⟨h, rfl⟩

theorem keepsKeys_failMarks (task : Task) (now : ℕ) :
    KeepsKeys w.store (w.failMarks task now).store := by
  unfold failMarks
  dsimp only
  split_ifs
  · rw [store_withLedger]
    exact .refl _
  · refine .trans ?_ (keepsKeys_withRecord _ _ fun r => ?_)
    · rw [store_withLedger]
      exact .refl _
    · split_ifs <;> exact ⟨rfl, rfl⟩
  · exact .refl _

theorem ledger_failMarks (task : Task) (now : ℕ) :
    (w.failMarks task now).ledger = w.ledger ∨ task.create.idempotencyKey ≠ "" ∧
      (w.failMarks task now).ledger =
        w.ledger.map (·.markResumable .server task.create.idempotencyKey) := by
  unfold failMarks
  dsimp only
  split_ifs
  · exact ledger_withLedger w task.create _
  · exact ledger_withLedger w task.create _
  · exact .inl rfl

section

variable {w w' : World} {i : ℕ} {task task' : Task} {e : Event}

theorem TaskMove.toPhase {ph : Phase}
    (htasks : w'.tasks = fun j => if j = i then some { task with phase := ph } else w.tasks j)
    (hfiles : w'.files = w.files) (hledger : w'.ledger = w.ledger)
    (hstore : KeepsKeys w.store w'.store)
    (hst : ph.staging = true → task.holds = true ∨ task.staged = none)
    (hfits : ∀ op, task.phase.Fits op → ph.Fits op) (hover : task.phase ≠ .ended)
    (hphase : PhaseMove cfg H w w' i task e ph) :
    TaskMove cfg H w w' i task { task with phase := ph } e := by
  refine ⟨htasks, rfl, rfl, hfits, fun h => absurd h hover, .inr hphase,
    .quiet ?_ ?_ rfl (holds_of_toPhase hst), .inl hledger, hstore⟩
  · rw [hfiles]
  · rw [hfiles]

theorem TaskMove.fail {w1 : World} (now : ℕ) (htasks : w1.tasks = w.tasks)
    (hledger : w1.ledger = w.ledger) (hstore : KeepsKeys w.store w1.store)
    (hcontent : w1.files.content = w.files.content) (hnext : w1.files.next = w.files.next) :
    TaskMove cfg H w (w1.failTask i task now) i task task.stop e where
  tasks := by
    funext j
    simp [htasks]
  create_eq := rfl
  viaResume_eq := rfl
  fits := fun _ _ => trivial
  stays := fun _ => rfl
  phase := .inr trivial
  effect := by
    refine .quiet (by simpa [failTask] using hcontent)
      (by simpa [failTask] using hnext) rfl holds_of_stop
  ledger := by
    rcases ledger_failMarks w1 task now with h | ⟨hkey, h⟩
    · exact .inl (h.trans hledger)
    · exact .inr ⟨hkey, .inl (h.trans (by rw [hledger]))⟩
  store := hstore.trans (keepsKeys_failMarks w1 task now)

end

end Velcrux.Session
