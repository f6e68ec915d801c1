import Velcrux.Foundations.Transition
import Velcrux.Session.Server

/-!
# What the server commits

The bytes that are renamed onto a destination have the declared hash. Hashing, VERIFY, COMMIT and
the rename are separate steps, and two sessions can have the same staging file: by a replayed
request, by a RESUME, by the receiving loops of a failed session, or by a link above its path.
-/

namespace Velcrux.Session

open Protocol State Storage Transfer Transition

variable (cfg : ServerConfig) (H : HashFn) (w : World)

def Phase.staging : Phase → Bool
  | .prestaging | .planned | .receiving | .hashing .. | .awaitVerify _ | .awaitCommit .. => true
  | _ => false

def Task.holds (task : Task) : Bool :=
  task.staged.isSome && (task.phase.staging || decide (0 < task.receivers))

/-- The staging file of task `i` is free: its path is not a link, and no other task holds a staging
file with the same path, or the same file under another name. -/
def StagingFree (i : ℕ) : Prop :=
  ∀ task, w.tasks i = some task →
    (∀ target, w.files.names (cfg.stagingPath task) ≠ some (.link target)) ∧
    ∀ j other, j ≠ i → w.tasks j = some other → other.holds = true →
      cfg.stagingPath other ≠ cfg.stagingPath task ∧
      ∀ inode, w.files.names (cfg.stagingPath task) = some (.file inode) →
        other.staged ≠ some inode

def DestinationFree (i : ℕ) : Prop :=
  ∀ task, w.tasks i = some task →
    ∀ j other, j ≠ i → w.tasks j = some other → other.holds = true →
      cfg.destPath task ≠ cfg.stagingPath other

def Separate : Event → Prop
  | .prestage i | .begin i _ => StagingFree cfg w i
  | .commit i _ _ _ | .execute i _ => DestinationFree cfg w i
  | _ => True

def Task.paths (task : Task) : List FilePath :=
  cfg.stagingPath task :: cfg.destPath task ::
    if task.create.op = .hardlink then [cfg.layout.resolve task.create.srcPath] else []

def Event.paths : Event → List FilePath
  | .request _ create _ _ _ _ => [cfg.layout.resolve create.dstPath]
  | .discard path => [path]
  | _ => []

/-- No link is on the way to a path of a request, so that a path is what its text says. -/
def PlainPaths (e : Event) : Prop :=
  (∀ p ∈ e.paths cfg, w.files.Plain p) ∧
    ∀ i task, w.tasks i = some task → ∀ p ∈ task.paths cfg, w.files.Plain p

def Apart (e : Event) : Prop := PlainPaths cfg w e ∧ Separate cfg w e

end Velcrux.Session
