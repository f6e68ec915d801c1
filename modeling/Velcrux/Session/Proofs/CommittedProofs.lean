import Velcrux.Session.Committed
import Velcrux.Session.Proofs.MoveProofs

/-!
# COMMITTED can be trusted

The invariant ties the ledger to the past: an entry that is marked committed belongs to a request
whose content has been in place. No file is written while a task hashes it as the destination.
-/

namespace Velcrux.Session

open Protocol State Storage Transfer Transition Option IdempotencyLedger FileTable

variable {cfg : ServerConfig} {H : HashFn} {h : List (World × Event)} {w w' : World} {e : Event}
variable {t : FileTable} {inode : ℕ}

/-! ## The invariant -/

theorem WasInPlace.later {create : TransferCreate} (hp : WasInPlace cfg H h w create) (e : Event)
    (w' : World) : WasInPlace cfg H ((w, e) :: h) w' create := by
  obtain ⟨m, bytes, hm, hread, hhash⟩ := hp
  exact ⟨m, bytes, hm.later e w', hread, hhash⟩

theorem WasAbsent.later {i : ℕ} {create : TransferCreate} (hp : WasAbsent cfg h w i create)
    (e : Event) (w' : World) : WasAbsent cfg ((w, e) :: h) w' i create := by
  obtain ⟨m, hm, hnone⟩ := hp
  exact ⟨m, hm.later e w', hnone⟩

def SeenContent (cfg : ServerConfig) (H : HashFn) (h : List (World × Event)) (w : World)
    (create : TransferCreate) : Phase → Prop
  | .hashingExisting inode _ read =>
    read = (w.files.content inode).take read.length ∧
      ∃ m, Moment (BearsKey create.idempotencyKey) h w m ∧
        m.files.fileAt (cfg.layout.resolve create.dstPath) = some inode ∧
        m.files.content inode = w.files.content inode
  | .identical | .applied | .committed => WasInPlace cfg H h w create
  | _ => True

def SeenAbsent (cfg : ServerConfig) (h : List (World × Event)) (w : World) (i : ℕ)
    (create : TransferCreate) : Phase → Prop
  | .applied | .committed => WasAbsent cfg h w i create
  | _ => True

structure Task.Known (cfg : ServerConfig) (H : HashFn) (h : List (World × Event)) (w : World)
    (i : ℕ) (task : Task) : Prop where
  request : Seen (IsRequest i) h
  key : Seen (BearsKey task.create.idempotencyKey) h
  fits : task.phase.Fits task.create.op
  content : task.create.op = .upload → task.create.fileHash ≠ .zero →
    SeenContent cfg H h w task.create task.phase
  absent : Deletes task.create → SeenAbsent cfg h w i task.create task.phase

def World.Reads (w : World) (inode : ℕ) : Prop :=
  ∃ i task size read, w.tasks i = some task ∧ task.phase = .hashingExisting inode size read

def World.Writes (w : World) (inode : ℕ) : Prop :=
  ∃ i task, w.tasks i = some task ∧ task.holds = true ∧ task.staged = some inode

def Earned (cfg : ServerConfig) (H : HashFn) (h : List (World × Event)) (w : World) (key : String)
    (entry : LedgerEntry) : Prop :=
  ∃ i task, w.tasks i = some task ∧ task.viaResume = false ∧
    task.create.idempotencyKey = key ∧ task.create.dstPath = entry.remotePath ∧
    (task.create.op = .upload → task.create.fileHash ≠ .zero → WasInPlace cfg H h w task.create)

structure Truth (cfg : ServerConfig) (H : HashFn) (h : List (World × Event)) (w : World) : Prop where
  safe : Safe cfg H w.files w.tasks
  synced : Synced w.ledger w.store
  reading_lt : ∀ inode, w.Reads inode → inode < w.files.next
  reading : ∀ inode, w.Reads inode → ¬ w.Writes inode
  known : ∀ i task, w.tasks i = some task → task.viaResume = false → task.Known cfg H h w i
  entry : ∀ l i task, w.ledger = some l → w.tasks i = some task → task.viaResume = false →
    task.create.idempotencyKey ≠ "" → task.phase ≠ .ended →
    ∃ entry, l.entries .server task.create.idempotencyKey = some entry ∧
      entry.remotePath = task.create.dstPath
  earned : ∀ l key entry, w.ledger = some l → key ≠ "" → l.entries .server key = some entry →
    entry.status = .committed → Earned cfg H h w key entry

variable {task task' : Task}

theorem Task.Known.later {i : ℕ} (hk : task.Known cfg H h w i)
    (hcreate : task'.create = task.create) (hphase : task'.phase = task.phase)
    (hread : ∀ inode size read, task.phase = .hashingExisting inode size read →
      w'.files.content inode = w.files.content inode) (e : Event) :
    task'.Known cfg H ((w, e) :: h) w' i where
  request := hk.request.cons _
  key := by
    rw [hcreate]
    exact hk.key.cons _
  fits := by
    rw [hcreate, hphase]
    exact hk.fits
  content := by
    rw [hcreate, hphase]
    intro hop hhash
    have hc := hk.content hop hhash
    cases hp : task.phase <;> simp only [hp, SeenContent] at hc ⊢
    case hashingExisting inode size read =>
      obtain ⟨htake, m, hm, hfile, hsame⟩ := hc
      rw [hread inode size read hp]
      exact ⟨htake, m, hm.later e w', hfile, hsame⟩
    all_goals exact hc.later e w'
  absent := by
    rw [hcreate, hphase]
    intro hdel
    have ha := hk.absent hdel
    cases hp : task.phase <;> simp only [hp, SeenAbsent] at ha ⊢
    all_goals exact ha.later e w'

/-! ## Files that are read and files that are written -/

section

variable {i : ℕ} {task task' : Task}

theorem TaskMove.reads (hm : TaskMove cfg H w w' i task task' e) (hi : w.tasks i = some task) (hr : w'.Reads inode) :
    w.Reads inode ∨
      e = .openExisting i ∧ w.files.fileAt (cfg.destPath task) = some inode := by
  obtain ⟨j, other, size, read, hj, hphase⟩ := hr
  rcases task_cases hm.tasks hj with ⟨-, rfl⟩ | ⟨-, hj⟩
  · rcases hm.phase with hkept | hmove
    · exact .inl ⟨i, task, size, read, hi, hkept ▸ hphase⟩
    · rw [hphase] at hmove
      rcases hmove with ⟨he, hfile, -⟩ | ⟨read0, n, hold, -⟩
      · exact .inr ⟨he, hfile⟩
      · exact .inl ⟨i, task, size, read0, hi, hold⟩
  · exact .inl ⟨j, other, size, read, hj, hphase⟩

theorem TaskMove.writes (hm : TaskMove cfg H w w' i task task' e) (hi : w.tasks i = some task) (hw : w'.Writes inode) :
    w.Writes inode ∨ (e = .prestage i ∨ ∃ n, e = .begin i n) ∧
      ∃ t, w.files.openWrite (cfg.stagingPath task) = some (inode, t) := by
  obtain ⟨j, other, hj, hholds, hst⟩ := hw
  rcases task_cases hm.tasks hj with ⟨-, rfl⟩ | ⟨-, hj⟩
  · cases hm.effect with
    | quiet _ _ hstaged hback => exact .inl ⟨i, task, hi, hback hholds, hstaged ▸ hst⟩
    | write k hstaged hstaged' hh _ _ _ =>
      obtain rfl : k = inode := by simpa [hstaged'] using hst
      exact .inl ⟨i, task, hi, hh, hstaged⟩
    | opens k t hev hopen hstaged' _ _ _ =>
      obtain rfl : k = inode := by simpa [hstaged'] using hst
      exact .inr ⟨hev, t, hopen⟩
  · exact .inl ⟨j, other, hj, hholds, hst⟩

end

/-! ## The ledger -/

theorem Earned.later {key : String} {entry entry' : LedgerEntry} (he : Earned cfg H h w key entry)
    (hpath : entry'.remotePath = entry.remotePath) (e : Event)
    (htasks : ∀ i task, w.tasks i = some task → ∃ task', w'.tasks i = some task' ∧
      task'.create = task.create ∧ task'.viaResume = task.viaResume) :
    Earned cfg H ((w, e) :: h) w' key entry' := by
  obtain ⟨i, task, hi, hvia, hkey, hdst, hplace⟩ := he
  obtain ⟨task', hi', hcreate, hvia'⟩ := htasks i task hi
  refine ⟨i, task', hi', hvia'.trans hvia, by rw [hcreate, hkey], by rw [hcreate, hdst, hpath], ?_⟩
  rw [hcreate]
  intro hop hhash
  exact (hplace hop hhash).later e w'

theorem TaskMove.entries {i : ℕ} (hm : TaskMove cfg H w w' i task task' e)
    {l' : IdempotencyLedger} (hl' : w'.ledger = some l') :
    ∃ l, w.ledger = some l ∧
      (∀ key entry, l.entries .server key = some entry →
        ∃ entry', l'.entries .server key = some entry' ∧ entry'.remotePath = entry.remotePath) ∧
      ∀ key entry', l'.entries .server key = some entry' → entry'.status = .committed →
        ∃ entry, l.entries .server key = some entry ∧ entry'.remotePath = entry.remotePath ∧
          (entry.status = .committed ∨ key = task.create.idempotencyKey ∧ key ≠ "" ∧
            task.viaResume = false ∧ (task'.phase = .applied ∨ task'.phase = .committed)) := by
  rcases hm.ledger with hsame | ⟨hkey, hres | ⟨hcom, hvia, hphase⟩⟩
  · refine ⟨l', hsame ▸ hl', fun key entry he => ⟨entry, he, rfl⟩, fun key entry' he hc => ?_⟩
    exact ⟨entry', he, rfl, .inl hc⟩
  · obtain ⟨l, hl, rfl⟩ := map_eq_some_iff.mp (hres ▸ hl')
    refine ⟨l, hl, fun key entry he => ?_, fun key entry' he hc => ?_⟩
    · obtain ⟨entry', he', rfl | rfl⟩ := exists_entries_modify he <;> exact ⟨_, he', rfl⟩
    · obtain ⟨entry, he, rfl | ⟨-, rfl⟩⟩ := exists_of_entries_modify he
      · exact ⟨entry', he, rfl, .inl hc⟩
      · cases hc
  · obtain ⟨l, hl, rfl⟩ := map_eq_some_iff.mp (hcom ▸ hl')
    refine ⟨l, hl, fun key entry he => ?_, fun key entry' he hc => ?_⟩
    · obtain ⟨entry', he', rfl | rfl⟩ := exists_entries_modify he <;> exact ⟨_, he', rfl⟩
    · obtain ⟨entry, he', rfl | ⟨rfl, rfl⟩⟩ := exists_of_entries_modify he
      · exact ⟨entry', he', rfl, .inl hc⟩
      · exact ⟨entry, he', rfl, .inr ⟨rfl, hkey, hvia, hphase⟩⟩

/-! ## A move of a task -/

section

variable {i : ℕ} {task task' : Task}

theorem Truth.renamed (ht : Truth cfg H h w) (hi : w.tasks i = some task) {verifyHash : Hash}
    {zero : Bool} (hphase : task.phase = .awaitCommit verifyHash zero) (hren : w.files.rename (cfg.stagingPath task) (cfg.destPath task) = some t)
    (hhash : task.create.fileHash ≠ .zero) :
    ∃ bytes, t.readAt (cfg.destPath task) = some bytes ∧ H bytes = task.create.fileHash := by
  obtain ⟨inode, hst, hholds, -, hverified⟩ := ht.safe.awaitCommit hi hphase
  obtain ⟨node, hnode, rfl⟩ := map_eq_some_iff.mp hren
  rcases ht.safe.owns i task hi hholds with hnone | ⟨inode', hst', hname⟩
  · exact absurd hnode (by simp [hnone])
  · obtain rfl : inode = inode' := by simpa [hst] using hst'
    obtain rfl : Node.file inode = node := by simpa [hname] using hnode
    refine ⟨w.files.content inode, ?_, ?_⟩
    · rw [readAt, fileAt_of_file (by simp; rfl)]
      simp
    · rw [hverified, Task.target, if_pos hhash]

variable (ht : Truth cfg H h w) (hi : w.tasks i = some task)
  (hm : TaskMove cfg H w w' i task task' e) (hap : Separate cfg w e) (hf : Faithful cfg w e)
include ht hi hm hap hf

end

/-! ## New tasks -/

section

variable {i : ℕ} {task : Task}

theorem Truth.reading_of_start (ht : Truth cfg H h w) (hfiles : w'.files = w.files)
    (htasks : w'.tasks = fun j => if j = i then some task else w.tasks j)
    (hstaged : task.staged = none)
    (hphase : ∀ inode size read, task.phase ≠ .hashingExisting inode size read)
    (hr : w'.Reads inode) : inode < w'.files.next ∧ ¬ w'.Writes inode := by
  have hr' : w.Reads inode := by
    obtain ⟨j, other, size, read, hj, hp⟩ := hr
    rcases task_cases htasks hj with ⟨-, rfl⟩ | ⟨-, hj⟩
    · exact absurd hp (hphase inode size read)
    · exact ⟨j, other, size, read, hj, hp⟩
  refine ⟨hfiles ▸ ht.reading_lt _ hr', ?_⟩
  rintro ⟨j, other, hj, hholds, hst⟩
  rcases task_cases htasks hj with ⟨-, rfl⟩ | ⟨-, hj⟩
  · exact absurd hst (by simp [hstaged])
  · exact ht.reading _ hr' ⟨j, other, hj, hholds, hst⟩

theorem tasks_later_of_start (hfree : w.tasks i = none)
    (htasks : w'.tasks = fun j => if j = i then some task else w.tasks j) (j : ℕ) (other : Task)
    (hj : w.tasks j = some other) :
    ∃ other', w'.tasks j = some other' ∧ other'.create = other.create ∧
      other'.viaResume = other.viaResume := by
  have hji : j ≠ i := by
    rintro rfl
    exact absurd hj (by simp [hfree])
  exact ⟨other, by simp [htasks, hji, hj], rfl, rfl⟩

variable {create : TransferCreate} {g : Gatekeeper} {checks : Bool} {newId : TransferId} {now : ℕ}

theorem isRequest_request (i : ℕ) (create : TransferCreate) (g : Gatekeeper) (checks : Bool)
    (newId : TransferId) (now : ℕ) : IsRequest i (.request i create g checks newId now) := rfl

theorem bearsKey_request (i : ℕ) (create : TransferCreate) (g : Gatekeeper) (checks : Bool)
    (newId : TransferId) (now : ℕ) :
    BearsKey create.idempotencyKey (.request i create g checks newId now) := rfl

theorem Truth.replayed (ht : Truth cfg H h w) (hst : Started cfg w w' i create task)
    (hphase : task.phase = .committed) :
    create.idempotencyKey ≠ "" ∧ w.ledger.isSome = true ∧ ∃ j other, w.tasks j = some other ∧
      other.viaResume = false ∧ other.create.idempotencyKey = create.idempotencyKey ∧
      other.create.dstPath = create.dstPath ∧
      (other.create.op = .upload → other.create.fileHash ≠ .zero →
        WasInPlace cfg H h w other.create) := by
  have hmove := hst.ledger
  rw [hphase] at hmove
  obtain ⟨l, hkey, hl, hl'⟩ := hmove.keyed
  obtain ⟨entry, hentry, hpath, hc⟩ := hmove.entry hl' hkey (by simp)
  obtain ⟨j, other, hj, hvia, hkey', hdst, hplace⟩ := ht.earned l _ entry hl hkey hentry (hc rfl)
  exact ⟨hkey, by simp [hl], j, other, hj, hvia, hkey', hdst.trans hpath, hplace⟩

theorem Truth.known_of_request (ht : Truth cfg H h w) (hst : Started cfg w w' i create task)
    (hfiles : w'.files = w.files) (hf : Faithful cfg w (.request i create g checks newId now)) :
    task.Known cfg H ((w, .request i create g checks newId now) :: h) w' i where
  request := .head (isRequest_request ..) w h
  key := by
    rw [hst.create_eq]
    exact .head (bearsKey_request ..) w h
  fits := hst.create_eq ▸ hst.fits
  content := by
    rw [hst.create_eq]
    intro hop hhash
    rcases hst.early with hp | hp | hp | hp | hp <;> simp only [hp, SeenContent]
    obtain ⟨hkey, hledger, j, other, hj, hvia, hkey', hdst, hplace⟩ := ht.replayed hst hp
    obtain ⟨hop', hhash'⟩ := (hf hledger hkey).1 hop j other hj hvia hkey'
    obtain ⟨m, bytes, hm, hread, hbytes⟩ := hplace hop' (hhash' ▸ hhash)
    rw [hkey'] at hm
    exact ⟨m, bytes, hm.later _ w', hdst ▸ hread, hbytes.trans hhash'⟩
  absent := by
    rw [hst.create_eq]
    intro hdel
    rcases hst.early with hp | hp | hp | hp | hp <;> simp only [hp, SeenAbsent]
    obtain ⟨hkey, hledger, j, other, hj, hvia, hkey', -, -⟩ := ht.replayed hst hp
    rcases (hf hledger hkey).2 hdel with hunused | hnone
    · exact absurd hkey' (hunused j other hj hvia)
    · exact ⟨w', .now (.head (isRequest_request ..) w h) w', by rw [hfiles]; exact hnone⟩

theorem keysIn_register {P : String → Prop} {s : SqliteStateStore} (hs : s.KeysIn P)
    (hkey : P create.idempotencyKey) (transferId : TransferId) (total bytesReusable now : ℕ) :
    (register cfg create transferId total bytesReusable now s).KeysIn P := by
  have hup : (s.upsertTransfer
      (newRecord cfg create transferId total bytesReusable now)).2.KeysIn P :=
    hs.upsertTransfer fun _ => hkey
  unfold register
  split_ifs
  · exact hup.writeJournal _
  · exact hup

theorem Truth.request (ht : Truth cfg H h w) (hfree : w.tasks i = none)
    (hfiles : w'.files = w.files) (hst : Started cfg w w' i create task)
    (hf : Faithful cfg w (.request i create g checks newId now))
    (hsafe : Safe cfg H w'.files w'.tasks) :
    Truth cfg H ((w, .request i create g checks newId now) :: h) w' := by
  have hnot : ∀ inode size read, task.phase ≠ .hashingExisting inode size read := by
    rcases hst.early with hp | hp | hp | hp | hp <;> simp [hp]
  have hreading : ∀ inode, w'.Reads inode → inode < w'.files.next ∧ ¬ w'.Writes inode :=
    fun _ hr => ht.reading_of_start hfiles hst.tasks hst.staged_eq hnot hr
  have hentry : ∀ l' j other, w'.ledger = some l' → w'.tasks j = some other →
      other.viaResume = false → other.create.idempotencyKey ≠ "" → other.phase ≠ .ended →
      ∃ entry, l'.entries .server other.create.idempotencyKey = some entry ∧
        entry.remotePath = other.create.dstPath := by
    intro l' j other hl' hj hvia hkey hended
    rcases task_cases hst.tasks hj with ⟨-, rfl⟩ | ⟨-, hj⟩
    · rw [hst.create_eq] at hkey ⊢
      obtain ⟨entry, hentry, hpath, -⟩ := hst.ledger.entry hl' hkey hended
      exact ⟨entry, hentry, hpath⟩
    · obtain ⟨l, hl, hfwd, -⟩ := hst.ledger.entries hl'
      obtain ⟨entry, hentry, hpath⟩ := ht.entry l j other hl hj hvia hkey hended
      exact ⟨entry, hfwd _ _ hentry, hpath⟩
  refine ⟨hsafe, ?_, fun inode hr => (hreading inode hr).1, fun inode hr => (hreading inode hr).2,
    ?_, hentry, ?_⟩
  · -- synced: the only new row is the one of this request
    intro l' s' hl' hs'
    obtain ⟨l, hl, hfwd, -⟩ := hst.ledger.entries hl'
    have hold : ∀ s, w.store = some s → s.KeysIn fun key => key ≠ "" → l'.Knows key := by
      intro s hs r hr hrole hkey
      obtain ⟨entry, hentry⟩ := isSome_iff_exists.mp (ht.synced l s hl hs r hr hrole hkey)
      exact isSome_iff_exists.mpr ⟨entry, hfwd _ entry hentry⟩
    rcases hst.store with hsame | ⟨hlive, total, bytesReusable, now, hreg⟩
    · exact hold s' (hsame ▸ hs')
    · obtain ⟨s, hs, rfl⟩ := map_eq_some_iff.mp (hreg ▸ hs')
      refine keysIn_register (hold s hs) (fun hkey => ?_) _ _ _ _
      have hi' : w'.tasks i = some task := by simp [hst.tasks]
      obtain ⟨entry, hentry, -⟩ :=
        hentry l' i task hl' hi' hst.viaResume_eq (hst.create_eq ▸ hkey) hlive
      exact isSome_iff_exists.mpr ⟨entry, hst.create_eq ▸ hentry⟩
  · -- what the tasks know
    intro j other hj hvia
    rcases task_cases hst.tasks hj with ⟨rfl, rfl⟩ | ⟨-, hj⟩
    · exact ht.known_of_request hst hfiles hf
    · exact (ht.known j other hj hvia).later rfl rfl (fun _ _ _ _ => by rw [hfiles]) _
  · -- the committed entries are the old ones
    intro l' key entry hl' hkey hentry hc
    obtain ⟨l, hl, -, hback⟩ := hst.ledger.entries hl'
    exact (ht.earned l key entry hl hkey (hback key entry hentry hc) hc).later rfl _
      (tasks_later_of_start hfree hst.tasks)

theorem Truth.resume (ht : Truth cfg H h w) (hfree : w.tasks i = none)
    (hfiles : w'.files = w.files) (hledger : w'.ledger = w.ledger) (hstore : w'.store = w.store)
    (htasks : w'.tasks = fun j => if j = i then some task else w.tasks j)
    (hvia : task.viaResume = true) (hstaged : task.staged = none) (hphase : task.phase = .planned)
    (hsafe : Safe cfg H w'.files w'.tasks) (e : Event) : Truth cfg H ((w, e) :: h) w' := by
  have hreading : ∀ inode, w'.Reads inode → inode < w'.files.next ∧ ¬ w'.Writes inode :=
    fun _ hr => ht.reading_of_start hfiles htasks hstaged (by simp [hphase]) hr
  -- the new task is not one of a TRANSFER_CREATE
  have hold : ∀ j other, w'.tasks j = some other → other.viaResume = false →
      w.tasks j = some other := by
    intro j other hj hother
    rcases task_cases htasks hj with ⟨-, rfl⟩ | ⟨-, hj⟩
    · exact absurd hother (by simp [hvia])
    · exact hj
  refine ⟨hsafe, ?_, fun inode hr => (hreading inode hr).1, fun inode hr => (hreading inode hr).2,
    ?_, ?_, ?_⟩
  · rw [hledger, hstore]
    exact ht.synced
  · intro j other hj hother
    exact (ht.known j other (hold j other hj hother) hother).later rfl rfl
      (fun _ _ _ _ => by rw [hfiles]) e
  · intro l j other hl hj hother
    exact ht.entry l j other (hledger ▸ hl) (hold j other hj hother) hother
  · intro l key entry hl hkey hentry hc
    exact (ht.earned l key entry (hledger ▸ hl) hkey hentry hc).later rfl e
      (tasks_later_of_start hfree htasks)

end

theorem Truth.discard (ht : Truth cfg H h w) (path : FilePath)
    (hsafe : Safe cfg H (w.files.remove path) w.tasks) (e : Event) :
    Truth cfg H ((w, e) :: h) { w with files := w.files.remove path } where
  safe := hsafe
  synced := ht.synced
  reading_lt := ht.reading_lt
  reading := ht.reading
  known := by
    intro j other hj hvia
    refine (ht.known j other hj hvia).later rfl rfl ?_ e
    intro _ _ _ _
    rfl
  entry := ht.entry
  earned := fun l key entry hl hkey hentry hc =>
    (ht.earned l key entry hl hkey hentry hc).later rfl e fun _ other hj => ⟨other, hj, rfl, rfl⟩

end Velcrux.Session
