import Velcrux.Session.Server

/-!
# Frame properties of the server's steps

A step changes one task and leaves all others alone.
-/

namespace Velcrux.Session

open Protocol State Storage Transfer Option World

variable {cfg : ServerConfig} {H : HashFn} (w : World)

@[simp] theorem World.files_withRecord (transferId : TransferId)
    (f : TransferRecord → TransferRecord) : (w.withRecord transferId f).files = w.files := rfl

@[simp] theorem World.tasks_withRecord (transferId : TransferId)
    (f : TransferRecord → TransferRecord) : (w.withRecord transferId f).tasks = w.tasks := rfl

@[simp] theorem World.files_failMarks (task : Task) (now : ℕ) :
    (w.failMarks task now).files = w.files := by
  unfold failMarks
  dsimp only
  split_ifs <;> simp

@[simp] theorem World.tasks_failMarks (task : Task) (now : ℕ) :
    (w.failMarks task now).tasks = w.tasks := by
  unfold failMarks
  dsimp only
  split_ifs <;> simp

@[simp] theorem World.files_commitMarks (task : Task) (now : ℕ) :
    (w.commitMarks task now).files = w.files := by
  unfold commitMarks
  split_ifs <;> simp

@[simp] theorem World.tasks_commitMarks (task : Task) (now : ℕ) :
    (w.commitMarks task now).tasks = w.tasks := by
  unfold commitMarks
  split_ifs <;> simp

theorem task_cases {tasks tasks' : ℕ → Option Task} {i j : ℕ} {task other : Task}
    (h : tasks' = fun j => if j = i then some task else tasks j) (hj : tasks' j = some other) :
    j = i ∧ task = other ∨ j ≠ i ∧ tasks j = some other := by
  subst h
  by_cases hji : j = i
  · exact .inl ⟨hji, by simpa [hji] using hj⟩
  · exact .inr ⟨hji, by simpa [hji] using hj⟩

variable {i j : ℕ} {w w' : World} {e : Event} {task : Task}

@[simp] theorem World.tasks_failTask (w : World) (i : ℕ) (task : Task) (now j : ℕ) :
    (w.failTask i task now).tasks j = if j = i then some task.stop else w.tasks j := by
  simp [failTask]

end Velcrux.Session
