import Velcrux.Foundations.DecimalOrder
import Velcrux.TxSnapshot.Engine

/-!
# Completed transactions, one after another

A transaction is given by the arguments of its calls. Each manifest should hold the files of the one
before with the staged operations applied. A commit starts from the snapshot whose id is the
greatest text, and ids are compared digit by digit.
-/

namespace Velcrux.TxSnapshot

inductive StageCall where
  | file (path : String) (data : Bytes) (base : Option ℕ) (nanos : ℕ)
  | delete (path : String) (base : Option ℕ)
deriving DecidableEq

variable (H : HashFn)

namespace StageCall

def path : StageCall → String
  | .file path _ _ _ => cleanPath path
  | .delete path _ => cleanPath path

def base : StageCall → Option ℕ
  | .file _ _ base _ => base
  | .delete _ base => base

def run (e : Engine) (txId : String) : StageCall → Engine × Except VelcruxError StagedFileOp
  | .file path data base nanos => e.stageFile H txId path data base nanos
  | .delete path base => e.stageDelete txId path base

end StageCall

def stageAll (H : HashFn) (txId : String) : List StageCall → Engine → Except VelcruxError Engine
  | [], e => .ok e
  | call :: calls, e =>
    match call.run H e txId with
    | (_, .error err) => .error err
    | (e, .ok _) => stageAll H txId calls e

structure Transaction where
  author : Option String
  nanos : ℕ
  secs : ℕ
  createdSecs : ℕ
  stages : List StageCall
  participants : List String
  checkPass : Iteration (String × StagedFileOp)
  votes : List TwoPhaseVote
  snapshotTag : Option String
  timestamp : ℕ
  promotePass : Iteration (String × StagedFileOp)
  cleanup : Cleanup

namespace Transaction

def staged (t : Transaction) (path : String) : Option StageCall :=
  t.stages.reverse.find? fun call => call.path = path

def run (t : Transaction) (e : Engine) : Except VelcruxError (Engine × GlobalSnapshotManifest) :=
  let (e, txId) := e.beginTx H t.author t.nanos t.secs t.createdSecs
  match stageAll H txId t.stages e with
  | .error err => .error err
  | .ok e =>
    match e.prepare2pc H txId t.participants t.checkPass with
    | (_, .error err) => .error err
    | (e, .ok _) =>
      match e.commit2pc H txId t.votes t.snapshotTag t.timestamp t.promotePass t.cleanup with
      | (_, .error err) => .error err
      | (e, .ok m) => .ok (e, m)

end Transaction

inductive Completed (H : HashFn) (nodeId : String) :
    List Transaction → List GlobalSnapshotManifest → Engine → Prop
  | new : Completed H nodeId [] [] (.new nodeId)
  | commit {ts : List Transaction} {ms : List GlobalSnapshotManifest} {e e' : Engine}
      {t : Transaction} {m : GlobalSnapshotManifest} (hcompleted : Completed H nodeId ts ms e)
      (hrun : t.run H e = .ok (e', m)) : Completed H nodeId (ts ++ [t]) (ms ++ [m]) e'

def filesAt (ms : List GlobalSnapshotManifest) : ℕ → String → Option FileRevision
  | 0, _ => none
  | n + 1, path => ms[n]?.bind fun m => m.files.get? path

def Applied (path : String) (before after : Option FileRevision) : Option StageCall → Prop
  | none => after = before
  | some (.delete _ _) => after = none
  | some (.file _ data _ _) => ∃ r, after = some r ∧ r.path = path ∧ r.size = data.length ∧
      r.hash = H data ∧ r.isTombstone = false

variable (ts : List Transaction)

def Builds (ms : List GlobalSnapshotManifest) : Prop :=
  ∀ n t, ts[n]? = some t → ∀ path,
    Applied H path (filesAt ms n path) (filesAt ms (n + 1) path) (t.staged path)

def Written (ts : List Transaction) (path : String) : ℕ → Prop
  | 0 => False
  | n + 1 =>
    match ts[n]?.bind fun t => t.staged path with
    | none => Written ts path n
    | some (.delete _ _) => False
    | some (.file _ _ _ _) => True

def Settled (t t' : Transaction) (b : ℕ) : Prop :=
  ∀ path call, t.staged path = some call → (t'.staged path).isSome ∨
    (∃ p base, call = .delete p base) ∧ ¬ Written ts path b

def NothingSkipped : Prop :=
  ∀ n t t', ts[n]? = some t → ts[n + 1]? = some t' → ¬ DecimalOrder.Nines (n + 1) →
    ∀ b, DecimalOrder.Leading (n + 1) b → Settled ts t t' b

end Velcrux.TxSnapshot
