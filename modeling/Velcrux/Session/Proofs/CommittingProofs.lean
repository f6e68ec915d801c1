import Velcrux.Session.Committing
import Velcrux.Session.Proofs.ServerProofs

/-!
# Sessions that are kept apart commit what was verified

A task that holds a staging file is the only one to hold it, its name leads to that file or to none,
and what the task knows about the file is true of its present content. `Safe.update` says when a
change of one task and one file keeps this.
-/

namespace Velcrux.Session

open Protocol State Storage Transfer Transition Option Session.Task Phase World FileTable

variable {cfg : ServerConfig} {H : HashFn}
variable {task task' : Task} {t : FileTable} {tasks : ℕ → Option Task} {i inode : ℕ} {w w' : World}
  {read : Bytes} {e : Event}

/-! ## The invariant -/

def Task.Sound (H : HashFn) (content : ℕ → Bytes) (task : Task) : Prop :=
  match task.phase with
  | .prestaging => task.receivers = 0 ∧ task.staged.isSome = true
  | .planned => task.receivers = 0 ∧ (task.delta = true → task.staged.isSome = true)
  | .receiving => task.staged.isSome = true
  | .hashing inode read _ =>
    task.staged = some inode ∧ task.receivers = 0 ∧ read = (content inode).take read.length
  | .awaitVerify computed =>
    ∃ inode, task.staged = some inode ∧ task.receivers = 0 ∧ computed = H (content inode)
  | .awaitCommit verifyHash _ =>
    ∃ inode, task.staged = some inode ∧ task.receivers = 0 ∧
      H (content inode) = task.target verifyHash
  | .applied | .committed | .ended => True
  | _ => task.receivers = 0 ∧ task.delta = false ∧ task.staged = none

def Task.Owns (cfg : ServerConfig) (t : FileTable) (task : Task) : Prop :=
  t.names (cfg.stagingPath task) = none ∨
    ∃ inode, task.staged = some inode ∧ t.names (cfg.stagingPath task) = some (.file inode)

structure Safe (cfg : ServerConfig) (H : HashFn) (t : FileTable) (tasks : ℕ → Option Task) :
    Prop where
  fresh : ∀ p inode, t.names p = some (.file inode) → inode < t.next
  staged_lt : ∀ i task inode, tasks i = some task → task.staged = some inode → inode < t.next
  owns : ∀ i task, tasks i = some task → task.holds = true → task.Owns cfg t
  apart : ∀ i j a b, i ≠ j → tasks i = some a → tasks j = some b → a.holds = true →
    b.holds = true → a.staged ≠ b.staged
  sound : ∀ i task, tasks i = some task → task.Sound H t.content

theorem Task.Sound.congr {content content' : ℕ → Bytes} (hs : task.Sound H content)
    (heq : task.holds = true → ∀ inode, task.staged = some inode →
      content' inode = content inode) : task.Sound H content' := by
  unfold Task.Sound at hs ⊢
  -- only the phases that hold a staging file speak about a content
  cases hp : task.phase <;> simp only [hp] at hs ⊢ <;> try exact hs
  case hashing inode read zero =>
    obtain ⟨hst, hr, hread⟩ := hs
    have hc := heq (by simp [holds, hst, hp, staging]) inode hst
    exact ⟨hst, hr, by rw [hc]; exact hread⟩
  case awaitVerify computed | awaitCommit verifyHash zero =>
    obtain ⟨inode, hst, hr, hc⟩ := hs
    have hc' := heq (by simp [holds, hst, hp, staging]) inode hst
    exact ⟨inode, hst, hr, by rw [hc']; exact hc⟩

theorem Task.Owns.congr (h : task.Owns cfg t) (hpath : cfg.stagingPath task' = cfg.stagingPath task)
    (hstaged : task'.staged = task.staged) : task'.Owns cfg t := by
  unfold Task.Owns at h ⊢
  rwa [hpath, hstaged]

structure Undisturbed (cfg : ServerConfig) (t t' : FileTable) (tasks : ℕ → Option Task) (i : ℕ)
    (task' : Task) : Prop where
  names : ∀ j other, j ≠ i → tasks j = some other → other.holds = true →
    t'.names (cfg.stagingPath other) = none ∨
      t'.names (cfg.stagingPath other) = t.names (cfg.stagingPath other)
  content : ∀ j other inode, j ≠ i → tasks j = some other → other.holds = true →
    other.staged = some inode → t'.content inode = t.content inode
  apart : ∀ j other inode, j ≠ i → tasks j = some other → other.holds = true →
    other.staged = some inode → task'.holds = true → task'.staged ≠ some inode

theorem Safe.update {t' : FileTable} (hs : Safe cfg H t tasks) (hu : Undisturbed cfg t t' tasks i task') (hnext : t.next ≤ t'.next)
    (hfresh : ∀ p inode, t'.names p = some (.file inode) → inode < t'.next)
    (hlt : ∀ inode, task'.staged = some inode → inode < t'.next)
    (howns : task'.holds = true → task'.Owns cfg t') (hsound : task'.Sound H t'.content) :
    Safe cfg H t' fun j => if j = i then some task' else tasks j where
  fresh := hfresh
  staged_lt := by
    intro j task inode hj hst
    rcases task_cases rfl hj with ⟨-, rfl⟩ | ⟨-, hj⟩
    · exact hlt inode hst
    · exact lt_of_lt_of_le (hs.staged_lt j task inode hj hst) hnext
  owns := by
    intro j task hj hholds
    rcases task_cases rfl hj with ⟨-, rfl⟩ | ⟨hji, hj⟩
    · exact howns hholds
    · rcases hu.names j task hji hj hholds with hn | hn
      · exact .inl hn
      · unfold Task.Owns
        rw [hn]
        exact hs.owns j task hj hholds
  apart := by
    intro j k a b hjk hj hk ha hb
    have key : ∀ l other, l ≠ i → tasks l = some other → other.holds = true →
        task'.holds = true → other.staged ≠ task'.staged := by
      intro l other hl hol hholds htask heq
      have hsome : other.staged.isSome = true := by
        have := hholds
        simp only [holds, Bool.and_eq_true] at this
        exact this.1
      obtain ⟨inode, hst⟩ := isSome_iff_exists.mp hsome
      exact hu.apart l other inode hl hol hholds hst htask (heq ▸ hst)
    rcases task_cases rfl hj, task_cases rfl hk with
      ⟨⟨hji, rfl⟩ | ⟨hji, hj⟩, ⟨hki, rfl⟩ | ⟨hki, hk⟩⟩
    · exact absurd (hji.trans hki.symm) hjk
    · exact (key k b hki hk hb ha).symm
    · exact key j a hji hj ha hb
    · exact hs.apart j k a b hjk hj hk ha hb
  sound := by
    intro j task hj
    rcases task_cases rfl hj with ⟨-, rfl⟩ | ⟨hji, hj⟩
    · exact hsound
    · exact (hs.sound j task hj).congr fun hholds inode hst =>
        hu.content j task inode hji hj hholds hst

theorem Safe.keep (hs : Safe cfg H t tasks) (hi : tasks i = some task)
    (hpath : cfg.stagingPath task' = cfg.stagingPath task) (hstaged : task'.staged = task.staged)
    (hholds : task'.holds = true → task.holds = true) (hsound : task'.Sound H t.content) :
    Safe cfg H t fun j => if j = i then some task' else tasks j := by
  refine hs.update ⟨?_, ?_, ?_⟩ le_rfl hs.fresh ?_ ?_ hsound
  · exact fun _ _ _ _ _ => .inr rfl
  · exact fun _ _ _ _ _ _ _ => rfl
  · intro j other inode hj hother hoh hst hth heq
    have := hs.apart i j task other (Ne.symm hj) hi hother (hholds hth) hoh
    exact this (by rw [← hstaged, heq, hst])
  · intro inode hst
    exact hs.staged_lt i task inode hi (hstaged ▸ hst)
  · exact fun hth => (hs.owns i task hi (hholds hth)).congr hpath hstaged

theorem Safe.start (hs : Safe cfg H t tasks) (hstaged : task'.staged = none) (hsound : task'.Sound H t.content) :
    Safe cfg H t fun j => if j = i then some task' else tasks j := by
  have hnot : task'.holds = false := by simp [holds, hstaged]
  refine hs.update ⟨?_, ?_, ?_⟩ le_rfl hs.fresh ?_ ?_ hsound
  · exact fun _ _ _ _ _ => .inr rfl
  · exact fun _ _ _ _ _ _ _ => rfl
  · intro _ _ _ _ _ _ _ hth
    exact absurd hth (by simp [hnot])
  · intro inode hst
    exact absurd (hstaged.symm.trans hst) (by simp)
  · intro hth
    exact absurd hth (by simp [hnot])

/-! ## Steps that touch a file -/

theorem Safe.opens (hs : Safe cfg H w.files w.tasks) {bytes : Bytes} (hfree : StagingFree cfg w i)
    (hi : w.tasks i = some task) (hopen : w.files.openWrite (cfg.stagingPath task) = some (inode, t))
    (hpath : cfg.stagingPath task' = cfg.stagingPath task) (hstaged : task'.staged = some inode)
    (hsound : task'.Sound H (t.setContent inode bytes).content) :
    Safe cfg H (t.setContent inode bytes) fun j => if j = i then some task' else w.tasks j := by
  obtain ⟨hlink, hfree⟩ := hfree task hi
  rcases openWrite_cases hlink hopen with ⟨hname, rfl⟩ | ⟨hname, rfl, rfl⟩
  · -- the file was there: no other task has it
    refine hs.update ⟨?_, ?_, ?_⟩ le_rfl hs.fresh ?_ ?_ hsound
    · exact fun _ _ _ _ _ => .inr rfl
    · intro j other inode' hj hother hoh hst
      have hne : inode' ≠ inode := by
        rintro rfl
        exact (hfree j other hj hother hoh).2 _ hname hst
      simp [hne]
    · intro j other inode' hj hother hoh hst _ heq
      rw [hstaged] at heq
      exact (hfree j other hj hother hoh).2 _ hname (hst.trans heq.symm)
    · intro inode' hst
      obtain rfl : inode = inode' := by simpa [hstaged] using hst
      exact hs.fresh _ _ hname
    · exact fun _ => .inr ⟨inode, hstaged, by rw [hpath]; exact hname⟩
  · -- a new file gets an inode nobody has
    have hne : ∀ j other inode', w.tasks j = some other → other.staged = some inode' →
        inode' ≠ w.files.next := fun j other inode' hj hst =>
      (hs.staged_lt j other inode' hj hst).ne
    refine hs.update ⟨?_, ?_, ?_⟩ (Nat.le_succ _) ?_ ?_ ?_ hsound
    · intro j other hj hother hoh
      simp [(hfree j other hj hother hoh).1]
    · intro j other inode' _ hother _ hst
      simp [hne j other inode' hother hst]
    · intro j other inode' _ hother _ hst _ heq
      rw [hstaged] at heq
      exact hne j other inode' hother hst (some.inj heq).symm
    · intro p inode' hp
      by_cases hpp : p = cfg.stagingPath task
      · obtain rfl : w.files.next = inode' := by simpa [hpp] using hp
        exact Nat.lt_succ_self _
      · exact Nat.lt_succ_of_lt (hs.fresh p inode' (by simpa [hpp] using hp))
    · intro inode' hst
      obtain rfl : w.files.next = inode' := by simpa [hstaged] using hst
      exact Nat.lt_succ_self _
    · exact fun _ => .inr ⟨_, hstaged, by simp [hpath]⟩

theorem Safe.writes (hs : Safe cfg H t tasks) {bytes : Bytes} (hi : tasks i = some task)
    (hholds : task.holds = true) (hinode : task.staged = some inode)
    (hpath : cfg.stagingPath task' = cfg.stagingPath task) (hstaged : task'.staged = task.staged)
    (hsound : task'.Sound H (t.setContent inode bytes).content) :
    Safe cfg H (t.setContent inode bytes) fun j => if j = i then some task' else tasks j := by
  have hapart : ∀ j other inode', j ≠ i → tasks j = some other → other.holds = true →
      other.staged = some inode' → inode' ≠ inode := by
    rintro j other inode' hj hother hoh hst rfl
    exact hs.apart i j task other (Ne.symm hj) hi hother hholds hoh (hinode.trans hst.symm)
  refine hs.update ⟨?_, ?_, ?_⟩ le_rfl hs.fresh ?_ ?_ hsound
  · exact fun _ _ _ _ _ => .inr rfl
  · intro j other inode' hj hother hoh hst
    simp [hapart j other inode' hj hother hoh hst]
  · intro j other inode' hj hother hoh hst _ heq
    rw [hstaged, hinode] at heq
    exact hapart j other inode' hj hother hoh hst (some.inj heq).symm
  · intro inode' hst
    exact hs.staged_lt i task inode' hi (hstaged ▸ hst)
  · exact fun _ => (hs.owns i task hi hholds).congr hpath hstaged

theorem Safe.unbind (hs : Safe cfg H t tasks)
    (p : FilePath) : Safe cfg H (t.setName p none) tasks where
  fresh := by
    intro q inode hq
    by_cases hqp : q = p
    · exact absurd hq (by simp [hqp])
    · exact hs.fresh q inode (by simpa [hqp] using hq)
  staged_lt := hs.staged_lt
  owns := by
    intro i task hi hholds
    by_cases hp : cfg.stagingPath task = p
    · exact .inl (by simp [hp])
    · have := hs.owns i task hi hholds
      simpa [Task.Owns, hp] using this
  apart := hs.apart
  sound := hs.sound

theorem Safe.bind (hs : Safe cfg H t tasks)
    {p : FilePath} {node : Node} (hnode : ∀ inode, node = .file inode → inode < t.next)
    (hp : ∀ i task, tasks i = some task → task.holds = true → cfg.stagingPath task ≠ p) :
    Safe cfg H (t.setName p (some node)) tasks where
  fresh := by
    intro q inode hq
    by_cases hqp : q = p
    · exact hnode inode (by simpa [hqp] using hq)
    · exact hs.fresh q inode (by simpa [hqp] using hq)
  staged_lt := hs.staged_lt
  owns := by
    intro i task hi hholds
    have := hs.owns i task hi hholds
    simpa [Task.Owns, hp i task hi hholds] using this
  apart := hs.apart
  sound := hs.sound

/-! ## Steps of a task -/

theorem Task.holds_of_toPhase {ph : Phase}
    (hst : ph.staging = true → task.holds = true ∨ task.staged = none)
    (h : holds { task with phase := ph } = true) : task.holds = true := by
  simp only [holds, Bool.and_eq_true, Bool.or_eq_true] at h
  obtain ⟨hsome, hph | hrec⟩ := h
  · rcases hst hph with h | h
    · exact h
    · exact absurd hsome (by simp [h])
  · simp [holds, hsome, hrec]

theorem Safe.toPhase (hs : Safe cfg H t tasks) (hi : tasks i = some task) {ph : Phase}
    (hst : ph.staging = true → task.holds = true ∨ task.staged = none)
    (hsound : Task.Sound H t.content { task with phase := ph }) :
    Safe cfg H t fun j => if j = i then some { task with phase := ph } else tasks j :=
  hs.keep hi rfl rfl (holds_of_toPhase hst) hsound

theorem Task.holds_of_stop (h : task.stop.holds = true) : task.holds = true := by
  cases hsp : task.spawned with
  | true => simp_all [holds, stop, staging]
  | false => simp [holds, stop, staging, hsp] at h

theorem Safe.ends (hs : Safe cfg H t tasks) (hi : tasks i = some task) :
    Safe cfg H t fun j => if j = i then some task.stop else tasks j :=
  hs.keep hi rfl rfl holds_of_stop trivial

theorem Safe.failTask
    (hs : Safe cfg H t tasks) (hi : tasks i = some task) (now : ℕ) (hfiles : w.files = t)
    (htasks : w.tasks = tasks) :
    Safe cfg H (w.failTask i task now).files (w.failTask i task now).tasks := by
  subst hfiles htasks
  have h := hs.ends hi
  unfold failTask
  simpa only [setTask, files_failMarks, tasks_failMarks] using h

theorem readBlock_some {n : ℕ} {read' : Bytes}
    (h : readBlock t inode read n = some read') (hread : read = (t.content inode).take read.length) :
    read' = (t.content inode).take read'.length := by
  unfold readBlock at h
  split_ifs at h with hlen
  obtain rfl : read ++ ByteFile.slice (t.content inode) read.length n = read' := by simpa using h
  have key : read ++ ByteFile.slice (t.content inode) read.length n =
      (t.content inode).take (read.length + n) := by
    rw [List.take_add, ByteFile.slice, ← hread]
  rw [key]
  simp

theorem readBlock_none {n : ℕ}
    (h : readBlock t inode read n = none) (hread : read = (t.content inode).take read.length) :
    read = t.content inode := by
  unfold readBlock at h
  split_ifs at h with hlen
  rw [hread, List.take_of_length_le hlen]

theorem Safe.fileAt_staging (hs : Safe cfg H t tasks) (hi : tasks i = some task) (hholds : task.holds = true)
    (hfile : t.fileAt (cfg.stagingPath task) = some inode) : task.staged = some inode := by
  rcases hs.owns i task hi hholds with hn | ⟨inode', hst, hn⟩
  · exact absurd hfile (by simp [fileAt_of_none hn])
  · rw [fileAt_of_file hn] at hfile
    exact hst.trans hfile

theorem Safe.verified (hs : Safe cfg H w.files w.tasks)
    (hi : w.tasks i = some task) {computed : Hash} (hphase : task.phase = .awaitVerify computed)
    (transferId : TransferId) (verifyHash : Hash) (now : ℕ) :
    Safe cfg H (verified w i task computed transferId verifyHash now).files
      (verified w i task computed transferId verifyHash now).tasks := by
  have hsound := hs.sound i task hi
  simp only [Task.Sound, hphase] at hsound
  obtain ⟨inode, hst, hrec, hcomp⟩ := hsound
  unfold Session.verified
  split_ifs with hbad hok
  · exact hs.failTask hi now rfl rfl
  · refine hs.toPhase hi (fun _ => .inl (by simp [holds, hst, hphase, staging])) ?_
    refine ⟨inode, hst, hrec, ?_⟩
    unfold verifyOk at hok
    unfold target
    split_ifs at hok ⊢
    · rw [← hcomp]
      simpa using hok
    · rw [← hcomp]
      simpa using hok
  · exact hs.failTask hi now rfl rfl

theorem Safe.hashed (hs : Safe cfg H w.files w.tasks) (hi : w.tasks i = some task) {zero : Bool}
    (hphase : task.phase = .hashing inode read zero) (hread : read = w.files.content inode) :
    Safe cfg H (hashed w i task (H read) zero).files (hashed w i task (H read) zero).tasks := by
  have hsound := hs.sound i task hi
  simp only [Task.Sound, hphase] at hsound
  obtain ⟨hst, hrec, -⟩ := hsound
  have hholds : task.holds = true := by simp [holds, hst, hphase, staging]
  unfold Session.hashed
  split_ifs with hzero heq
  · refine hs.toPhase hi (fun _ => .inl hholds) ⟨inode, hst, hrec, ?_⟩
    rw [← hread, heq]
    simp [target]
  · exact hs.toPhase hi (fun _ => .inl hholds) trivial
  · exact hs.toPhase hi (fun _ => .inl hholds) ⟨inode, hst, hrec, by rw [hread]⟩

theorem Safe.awaitCommit (hs : Safe cfg H t tasks) (hi : tasks i = some task) {verifyHash : Hash}
    {zero : Bool} (hphase : task.phase = .awaitCommit verifyHash zero) :
    ∃ inode, task.staged = some inode ∧ task.holds = true ∧ task.receivers = 0 ∧
      H (t.content inode) = task.target verifyHash := by
  have hsound := hs.sound i task hi
  simp only [Task.Sound, hphase] at hsound
  obtain ⟨inode, hst, hrec, htarget⟩ := hsound
  exact ⟨inode, hst, by simp [holds, hst, hphase, staging], hrec, htarget⟩

theorem Safe.commitTask (hs : Safe cfg H w.files w.tasks)
    (hi : w.tasks i = some task) {verifyHash : Hash} {zero : Bool}
    (hphase : task.phase = .awaitCommit verifyHash zero) (hfree : DestinationFree cfg w i)
    (transferId : TransferId) (result : CommitResult) (now : ℕ) :
    Safe cfg H (commitTask cfg w i task zero transferId result now).files
      (commitTask cfg w i task zero transferId result now).tasks := by
  obtain ⟨-, -, -, hrec, -⟩ := hs.awaitCommit hi hphase
  -- after the rename neither outcome leaves the task holding anything
  have renamed : ∀ (task' : Task) (t : FileTable), task'.staged = task.staged →
      cfg.stagingPath task' = cfg.stagingPath task → task'.holds = false →
      task'.Sound H w.files.content →
      w.files.rename (cfg.stagingPath task) (cfg.destPath task) = some t →
      Safe cfg H t fun j => if j = i then some task' else w.tasks j := by
    intro task' t hst' hpath hnot hsound' hren
    have hkept := hs.keep hi hpath hst' (fun h => absurd h (by simp [hnot])) hsound'
    obtain ⟨node, hnode, rfl⟩ := map_eq_some_iff.mp hren
    refine (hkept.unbind _).bind ?_ ?_
    · rintro ino rfl
      exact hs.fresh _ _ hnode
    · intro j other hj hholds heq
      rcases task_cases rfl hj with ⟨-, rfl⟩ | ⟨hji, hj⟩
      · exact absurd hholds (by simp [hnot])
      · exact hfree task hi j other hji hj hholds heq.symm
  unfold Session.commitTask
  split_ifs with hbad hz
  · exact hs.failTask hi now rfl rfl
  all_goals
    dsimp only
    split
    · exact hs.failTask hi now rfl rfl
    · exact hs.failTask hi now rfl rfl
    · rename_i t hren
      unfold World.failTask
      simp only [setTask, files_failMarks, tasks_failMarks]
      exact renamed _ t rfl rfl (by simp [holds, stop, staging, hrec]) trivial hren
    · rename_i t hren
      exact renamed _ t rfl rfl (by simp [holds, staging, hrec]) trivial hren

theorem Safe.unstaged (hs : Safe cfg H t tasks) (hi : tasks i = some task)
    (hphase : task.phase = .selected ∨ task.phase = .negotiating ∨ task.phase = .identical ∨
      task.phase = .executing ∨ task.phase = .downloading ∨
      ∃ inode size read, task.phase = .hashingExisting inode size read) :
    task.receivers = 0 ∧ task.delta = false ∧ task.staged = none := by
  have hsound := hs.sound i task hi
  rcases hphase with h | h | h | h | h | ⟨_, _, _, h⟩ <;> simpa only [Task.Sound, h] using hsound

theorem Safe.executed (hs : Safe cfg H w.files w.tasks)
    (hi : w.tasks i = some task) (hphase : task.phase = .executing)
    (hfree : DestinationFree cfg w i) {ok : Bool}
    (h : executed cfg w.files task ok = some t) : Safe cfg H t w.tasks := by
  have hst := (hs.unstaged hi (by simp [hphase])).2.2
  have hp : ∀ j other, w.tasks j = some other → other.holds = true →
      cfg.stagingPath other ≠ cfg.destPath task := by
    intro j other hj hholds heq
    by_cases hji : j = i
    · subst hji
      obtain rfl : task = other := by simpa [hi] using hj
      exact absurd hholds (by simp [holds, hst])
    · exact hfree task hi j other hji hj hholds heq.symm
  have removed : ∀ t, some (if ok then w.files.remove (cfg.destPath task) else w.files) = some t →
      Safe cfg H t w.tasks := by
    intro t ht
    split_ifs at ht <;> cases ht
    · exact hs.unbind _
    · exact hs
  unfold Session.executed at h
  split at h
  · exact removed t h
  · exact removed t h
  · split_ifs at h
    cases h
    exact hs.bind (by simp) hp
  · split_ifs at h
    obtain ⟨node, hnode, rfl⟩ := map_eq_some_iff.mp h
    refine hs.bind ?_ hp
    rintro inode rfl
    exact hs.fresh _ _ hnode
  · split_ifs at h
    cases h
    exact hs

theorem Safe.taskStep (hs : Safe cfg H w.files w.tasks)
    (hi : w.tasks i = some task) (he : e.task? = some i) (hok : Separate cfg w e)
    (h : taskStep cfg H w i task task.phase e = some w') : Safe cfg H w'.files w'.tasks := by
  have hsound := hs.sound i task hi
  generalize hphase : task.phase = phase at h
  unfold Session.taskStep at h
  split at h
  · -- the destination is opened
    have hun := hs.unstaged hi (by simp [hphase])
    split_ifs at h
    obtain ⟨inode, -, rfl⟩ := map_eq_some_iff.mp h
    exact hs.toPhase hi (by simp [staging]) hun
  · -- a block of the destination
    have hun := hs.unstaged hi (by simp [hphase])
    split at h
    · cases h
      exact hs.toPhase hi (by simp [staging]) hun
    · split_ifs at h <;> cases h <;> exact hs.toPhase hi (by simp [staging]) hun
  · have hun := hs.unstaged hi (by simp [hphase])
    split_ifs at h
    cases h
    exact hs.toPhase hi (by simp [staging]) hun
  · cases h
    exact hs.toPhase hi (by simp [staging]) trivial
  · -- the staging file is created for pre-staging
    rename_i j
    obtain rfl : j = i := by simpa [Event.task?] using he
    obtain ⟨⟨inode, t⟩, hopen, rfl⟩ := map_eq_some_iff.mp h
    have hrec := (hs.unstaged hi (by simp [hphase])).1
    exact hs.opens hok hi hopen rfl rfl ⟨hrec, rfl⟩
  · obtain ⟨inode, hinode, rfl⟩ := map_eq_some_iff.mp h
    refine hs.writes hi ?_ hinode rfl rfl ?_
    · simp [holds, hinode, hphase, staging]
    · simpa only [Task.Sound, hphase] using hsound
  · cases h
    simp only [Task.Sound, hphase] at hsound
    refine hs.toPhase hi (fun _ => .inl ?_) ⟨hsound.1, fun _ => hsound.2⟩
    simp [holds, hsound.2, hphase, staging]
  · split_ifs at h
    cases h
    obtain ⟨hrec, hdelta, hst⟩ := hs.unstaged hi (by simp [hphase])
    exact hs.toPhase hi (fun _ => .inr hst) ⟨hrec, by simp [hdelta]⟩
  · cases h
    obtain ⟨hrec, hdelta, hst⟩ := hs.unstaged hi (by simp [hphase])
    exact hs.toPhase hi (fun _ => .inr hst) ⟨hrec, by simp [hdelta]⟩
  · -- the session opens its staging file
    rename_i j streams
    obtain rfl : j = i := by simpa [Event.task?] using he
    split_ifs at h
    obtain ⟨⟨inode, t⟩, hopen, rfl⟩ := map_eq_some_iff.mp h
    exact hs.opens hok hi hopen rfl rfl rfl
  · split_ifs at h with hzero
    obtain ⟨inode, hfile, rfl⟩ := map_eq_some_iff.mp h
    simp only [Task.Sound, hphase] at hsound
    have hholds : task.holds = true := by
      simp [holds, hsound.2 hzero.1, hphase, staging]
    have hst := hs.fileAt_staging hi hholds hfile
    exact hs.toPhase hi (fun _ => .inl hholds) ⟨hst, hsound.1, by simp⟩
  · split_ifs at h with hrec
    obtain ⟨inode, hfile, rfl⟩ := map_eq_some_iff.mp h
    simp only [Task.Sound, hphase] at hsound
    have hholds : task.holds = true := by simp [holds, hsound, hphase, staging]
    have hst := hs.fileAt_staging hi hholds hfile
    exact hs.toPhase hi (fun _ => .inl hholds) ⟨hst, hrec.1, by simp⟩
  · -- a block of the staging file
    simp only [Task.Sound, hphase] at hsound
    obtain ⟨hst, hrec, hread⟩ := hsound
    split at h
    · rename_i hblock
      cases h
      have hholds : task.holds = true := by simp [holds, hst, hphase, staging]
      exact hs.toPhase hi (fun _ => .inl hholds) ⟨hst, hrec, readBlock_some hblock hread⟩
    · rename_i hblock
      cases h
      exact hs.hashed hi hphase (readBlock_none hblock hread)
  · split_ifs at h
    cases h
    exact hs
  · cases h
    exact hs
  · cases h
    exact hs.verified hi hphase _ _ _
  · rename_i j _ _ _
    obtain rfl : j = i := by simpa [Event.task?] using he
    cases h
    exact hs.commitTask hi hphase hok _ _ _
  · rename_i j _
    obtain rfl : j = i := by simpa [Event.task?] using he
    split at h
    · rename_i t ht
      cases h
      exact (hs.executed hi hphase hok ht).toPhase hi (by simp [staging]) trivial
    · cases h
      exact hs.toPhase hi (by simp [staging]) trivial
  · split_ifs at h <;> cases h
    · exact hs.toPhase hi (by simp [staging]) trivial
    · exact hs.failTask hi _ rfl rfl
  · cases h
    exact hs.toPhase hi (by simp [staging]) trivial
  · cases h
    simpa using hs
  · cases h
    simpa using hs
  · cases h

theorem Safe.receiverStep (hs : Safe cfg H w.files w.tasks)
    (hi : w.tasks i = some task) (h : receiverStep w i task e = some w') :
    Safe cfg H w'.files w'.tasks := by
  have hsound := hs.sound i task hi
  unfold Session.receiverStep at h
  split at h
  · split_ifs at h with hrec
    obtain ⟨inode, hinode, rfl⟩ := map_eq_some_iff.mp h
    have hpos : 0 < task.receivers := Nat.pos_of_ne_zero hrec
    refine hs.writes hi (by simp [holds, hinode, hpos]) hinode rfl rfl ?_
    -- a task whose loops still run knows nothing about the content
    unfold Task.Sound at hsound ⊢
    cases hp : task.phase <;> simp only [hp] at hsound ⊢ <;> first | exact hsound | omega
  · split_ifs at h with hrec
    cases h
    refine hs.keep hi rfl rfl ?_ ?_
    · intro hholds
      simp only [holds, Bool.and_eq_true, Bool.or_eq_true, decide_eq_true_eq] at hholds ⊢
      exact ⟨hholds.1, .inr (Nat.pos_of_ne_zero hrec)⟩
    · unfold Task.Sound at hsound ⊢
      cases hp : task.phase <;> simp only [hp] at hsound ⊢ <;> first | exact hsound | omega
  · cases h

def firstByte : HashFn := fun b => .repeated (b.headD 0)

def plainConfig : ServerConfig where
  layout := ⟨["data"], ["staging"], fun _ => "00000000000000000000000000"⟩
  backend := ⟨0, false⟩
  hasChunkStore := false
  debug := fun s => "\"" ++ s ++ "\""

def openGate : Gatekeeper := ⟨none, fun _ _ => true⟩

def nilId : TransferId := .zero

def emptyServer : World := ⟨.empty, some .new, some .empty, fun _ => none⟩

def uploadOne : TransferCreate := ⟨.upload, "", "a", "k", 1, firstByte [1]⟩

def verifyOne (i : ℕ) : List Event :=
  [.chunk i ⟨0, 1, false, [1]⟩, .streamEnd i true, .startHash i 0, .readStaging i 1,
    .readStaging i 1, .verify i nilId (firstByte [1]) 0]

def openOne (i : ℕ) : List Event :=
  [.request i uploadOne openGate true nilId 0, .plan i, .begin i 1]

end Velcrux.Session
