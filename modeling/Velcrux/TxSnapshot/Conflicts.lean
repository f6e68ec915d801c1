import Velcrux.Foundations.Transition
import Velcrux.TxSnapshot.Succession

/-!
# Interleaved calls and expected versions

The calls of any number of transactions on one engine, in any order. Of two transactions that stage
the same path with the same expected version only one should be committed. The versions are compared
when a transaction is prepared, and nothing is reserved until it is committed.
-/

namespace Velcrux.TxSnapshot

inductive Call where
  | beginTx (author : Option String) (nanos secs createdSecs : ℕ)
  | stage (txId : String) (call : StageCall)
  | prepare2pc (txId : String) (participants : List String) (pass : Iteration (String × StagedFileOp))
  | vote2pc (prepare : TwoPhasePrepare)
  | commit2pc (txId : String) (votes : List TwoPhaseVote) (snapshotTag : Option String) (timestamp : ℕ)
      (pass : Iteration (String × StagedFileOp)) (cleanup : Cleanup)
  | abortTx (txId : String) (removal : Removal)

def Engine.step (H : HashFn) (e : Engine) : Call → Engine
  | .beginTx author nanos secs createdSecs => (e.beginTx H author nanos secs createdSecs).1
  | .stage txId call => (call.run H e txId).1
  | .prepare2pc txId participants pass => (e.prepare2pc H txId participants pass).1
  | .vote2pc _ => e
  | .commit2pc txId votes tag timestamp pass cleanup =>
    (e.commit2pc H txId votes tag timestamp pass cleanup).1
  | .abortTx txId removal => e.abortTx txId removal

abbrev History := List (Engine × Call)

structure Begun where
  number : ℕ
  engine : Engine
  staged : List StageCall

def begunAs (H : HashFn) (txId : String) : History → Option Begun
  | [] => none
  | (e, .beginTx author nanos secs createdSecs) :: h =>
    if (e.beginTx H author nanos secs createdSecs).2 = txId then some ⟨h.length, e, []⟩
    else begunAs H txId h
  | (e, .stage txId' call) :: h =>
    if txId' = txId ∧ (call.run H e txId').2.isOk then
      (begunAs H txId h).map fun x => { x with staged := call :: x.staged }
    else begunAs H txId h
  | _ :: h => begunAs H txId h

def committed (H : HashFn) : History → List Begun
  | [] => []
  | (e, .commit2pc txId votes tag timestamp pass cleanup) :: h =>
    if (e.commit2pc H txId votes tag timestamp pass cleanup).2.isOk then
      (begunAs H txId h).toList ++ committed H h
    else committed H h
  | _ :: h => committed H h

def Begun.Expects (x : Begun) (path : String) (b : ℕ) : Prop :=
  (∃ call ∈ x.staged, call.path = path ∧ call.base = some b) ∧ x.engine.catalog.latest path ≤ b

def NoLostUpdate (H : HashFn) (h : History) : Prop :=
  ∀ x ∈ committed H h, ∀ y ∈ committed H h, x.number ≠ y.number →
    ∀ path b, x.Expects path b → ¬ y.Expects path b

/-- A commit is called while every path has exactly the version that its operation expects. A second
operation on a path of a transaction expects the version that the first one does. -/
def Current (e : Engine) : Call → Prop
  | .commit2pc txId _ _ _ _ _ => ∀ info, e.metas txId = some info → ∀ path op,
      info.stagedOps.get? path = some op → ∀ b, op.expectedBaseVersion = some b →
      e.catalog.latest path = b
  | .stage txId call => ∀ info, e.metas txId = some info → ∀ op,
      info.stagedOps.get? call.path = some op → ∀ b, op.expectedBaseVersion = some b →
      call.base = some b
  | _ => True

def Calls (H : HashFn) (nodeId : String) (ok : Engine → Call → Prop) : History → Engine → Prop :=
  Transition.Run (fun e call => some (e.step H call)) ok (· = .new nodeId)

end Velcrux.TxSnapshot
