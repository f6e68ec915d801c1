import Velcrux.TxSnapshot.Conflicts

/-!
# The votes of two-phase commit

The votes that decide a commit. The code looks only for votes to abort; and a transaction whose
metadata cannot be removed stays prepared.
-/

namespace Velcrux.TxSnapshot

def Unanimous (participants : List String) (votes : List TwoPhaseVote) : Prop :=
  (∀ node ∈ participants, ∃ v ∈ votes, v.nodeId = node ∧ v.vote = .commit) ∧
    ∀ v ∈ votes, v.vote = .commit

def IsVoteError (votes : List TwoPhaseVote) (err : VelcruxError) : Prop :=
  ∃ v ∈ votes, ∃ reason, v.vote = .abort reason ∧
    err = .internal s!"2PC aborted due to participant '{v.nodeId}': {reason}"

def Call.Begins (H : HashFn) (e : Engine) (txId : String) : Call → Prop
  | .beginTx author nanos secs createdSecs => (e.beginTx H author nanos secs createdSecs).2 = txId
  | _ => False

inductive Engine.After (H : HashFn) (txId : String) (e : Engine) : Engine → Prop
  | refl : After H txId e e
  | step {e' : Engine} {call : Call} (hafter : After H txId e e') (hbegin : ¬ call.Begins H e' txId) :
      After H txId e (e'.step H call)

def Engine.Ended (H : HashFn) (e : Engine) (txId : String) : Prop :=
  ∀ e', e.After H txId e' → ∀ votes tag timestamp pass cleanup m,
    (e'.commit2pc H txId votes tag timestamp pass cleanup).2 ≠ .ok m

/-- A commit needs a vote of everybody who takes part, and a vote to abort ends the transaction with
nothing changed. -/
def VotesDecide (H : HashFn) (e : Engine) (txId : String) (votes : List TwoPhaseVote)
    (tag : Option String) (timestamp : ℕ) (pass : Iteration (String × StagedFileOp))
    (cleanup : Cleanup) : Prop :=
  let (e', result) := e.commit2pc H txId votes tag timestamp pass cleanup
  match result with
  | .ok _ => ∀ info prepare, e.metas txId = some info → info.preparedManifest = some prepare →
      Unanimous prepare.participants votes
  | .error err => IsVoteError votes err →
      e'.catalog = e.catalog ∧ e'.versions = e.versions ∧ e'.Ended H txId

/-- If the transaction is prepared: with a vote to abort, its metadata can be removed; without one, there
is a vote to commit of everybody who takes part. -/
def AllHeard (e : Engine) (txId : String) (votes : List TwoPhaseVote) (removal : Removal) : Prop :=
  ∀ info, e.metas txId = some info → info.state = .prepared →
    ((∃ v ∈ votes, v.vote ≠ .commit) → removal.metadata = true) ∧
    ((∀ v ∈ votes, v.vote = .commit) → ∀ prepare, info.preparedManifest = some prepare →
      ∀ node ∈ prepare.participants, ∃ v ∈ votes, v.nodeId = node)

end Velcrux.TxSnapshot
