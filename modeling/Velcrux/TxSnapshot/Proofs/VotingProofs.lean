import Velcrux.TxSnapshot.Voting
import Velcrux.TxSnapshot.Proofs.ConflictProofs

/-!
# When votes decide

A call of `commit_2pc` on a prepared transaction goes one of two ways, and each keeps the contract under a
condition of its own.
-/

namespace Velcrux.TxSnapshot

open Engine

variable {H : HashFn} {nodeId : String} {e e' : Engine} {h : History} {txId : String}
  {info : ActiveTxMeta} {votes : List TwoPhaseVote} {tag : Option String} {timestamp : ℕ}
  {pass : Iteration (String × StagedFileOp)} {cleanup : Cleanup}

theorem firstAbort_eq_none_iff : firstAbort votes = none ↔ ∀ v ∈ votes, v.vote = .commit := by
  rw [firstAbort, List.findSome?_eq_none_iff]
  refine forall₂_congr fun v _ => ?_
  cases v.vote <;> simp

theorem exists_of_firstAbort {node reason : String} (h : firstAbort votes = some (node, reason)) :
    ∃ v ∈ votes, v.vote = .abort reason ∧ v.nodeId = node := by
  obtain ⟨v, hv, heq⟩ := List.exists_of_findSome?_eq_some h
  refine ⟨v, hv, ?_⟩
  cases hvote : v.vote <;> simp_all

theorem not_isVoteError {text : String} (hhead : text.toList.head? ≠ some '2') :
    ¬ IsVoteError votes (.internal text) := by
  rintro ⟨v, -, reason, -, heq⟩
  refine hhead ?_
  rw [VelcruxError.internal.inj heq]
  simp [toString]

theorem Engine.metas_step_none (hown : e.Owned) (hnone : e.metas txId = none) {call : Call}
    (hbegin : ¬ call.Begins H e txId) : (e.step H call).metas txId = none := by
  have hof : ∀ e' : Engine, e.Keeps e' → e'.metas txId = none := by
    intro e' hkeeps
    cases hinfo : e'.metas txId with
    | none => rfl
    | some info =>
      obtain ⟨info0, hinfo0, -⟩ := hkeeps txId info hinfo
      rw [hnone] at hinfo0
      cases hinfo0
  cases call with
  | beginTx author nanos secs createdSecs =>
    have hne : txId ≠ (e.beginTx H author nanos secs createdSecs).2 := fun heq => hbegin heq.symm
    exact (e.metas_saveTxMeta_of_ne hne).trans hnone
  | stage id call =>
    rcases e.stage_cases call id with heq | ⟨info, data, hinfo, -, heq⟩ <;>
      rw [step, heq]
    · exact hnone
    · have hne : txId ≠ info.txId := by
        rintro rfl
        rw [hown id info hinfo, hinfo] at hnone
        cases hnone
      exact (metas_saveTxMeta_of_ne { e with data := data } (by exact hne)).trans hnone
  | prepare2pc id participants pass => exact hof _ (keeps_prepare2pc hown id _ _)
  | vote2pc prepare => exact hnone
  | commit2pc id votes tag timestamp pass cleanup =>
    exact hof _ (keeps_commit2pc hown id _ _ _ _ _)
  | abortTx id removal => exact hof _ (e.keeps_abortTx id removal)

theorem Engine.After.none (hafter : e.After H txId e') (hown : e.Owned) (hnone : e.metas txId = none) :
    e'.Owned ∧ e'.metas txId = none := by
  induction hafter with
  | refl => exact ⟨hown, hnone⟩
  | step _ hbegin ih => exact ⟨ih.1.step _, metas_step_none ih.1 ih.2 hbegin⟩

theorem Engine.ended_of_none (hown : e.Owned) (hnone : e.metas txId = none) : e.Ended H txId := by
  intro e' hafter votes tag timestamp pass cleanup m hok
  have hcommit : e'.commit2pc H txId votes tag timestamp pass cleanup = (_, .ok m) := Prod.ext rfl hok
  obtain ⟨info, -, -, hinfo, -⟩ := commit2pc_ok hcommit
  rw [(hafter.none hown hnone).2] at hinfo
  cases hinfo

theorem Engine.not_ended_of_prepared (hinfo : e.metas txId = some info)
    (hstate : info.state = .prepared) : ¬ e.Ended H txId := by
  intro hended
  obtain ⟨e', m, hok⟩ : ∃ e' m, e.commit2pc H txId [] none 0 .sorted .full = (e', .ok m) :=
    commit2pc_of_prepared hinfo hstate rfl
  exact hended e .refl _ _ _ _ _ m (congrArg Prod.snd hok)

theorem votesDecide_of_unprepared (hinfo : ∀ info, e.metas txId = some info → info.state ≠ .prepared) :
    VotesDecide H e txId votes tag timestamp pass cleanup := by
  unfold VotesDecide commit2pc admit2pc loadTxMeta
  cases hmeta : e.metas txId with
  | none => exact fun herr => absurd herr (not_isVoteError (by simp [toString]))
  | some info =>
    dsimp only
    rw [if_pos (hinfo info hmeta)]
    exact fun herr => absurd herr (not_isVoteError (by simp [toString]))

theorem votesDecide_of_abort (hown : e.Owned) (hinfo : e.metas txId = some info)
    (hstate : info.state = .prepared) (habort : ∃ v ∈ votes, v.vote ≠ .commit) :
    VotesDecide H e txId votes tag timestamp pass cleanup ↔ cleanup.removal.metadata = true := by
  obtain ⟨⟨node, reason⟩, hfirst⟩ : ∃ x, firstAbort votes = some x := by
    refine Option.ne_none_iff_exists'.mp fun hnone => ?_
    obtain ⟨v, hv, hvote⟩ := habort
    exact hvote (firstAbort_eq_none_iff.mp hnone v hv)
  have hcommit : e.commit2pc H txId votes tag timestamp pass cleanup =
      (e.abortTx txId cleanup.removal,
        .error (.internal s!"2PC aborted due to participant '{node}': {reason}")) := by
    unfold commit2pc admit2pc
    simp only [loadTxMeta_ok_iff.mpr hinfo, hstate, hfirst, ne_eq, not_true_eq_false, if_false]
  have habortTx : e.abortTx txId cleanup.removal = e.removeStaged txId cleanup.removal := by
    rw [abortTx, hinfo]
  have herr : IsVoteError votes (.internal s!"2PC aborted due to participant '{node}': {reason}") := by
    obtain ⟨v, hv, hvote, hnode⟩ := exists_of_firstAbort hfirst
    exact ⟨v, hv, reason, hvote, by rw [hnode]⟩
  have hmetas : (e.removeStaged txId cleanup.removal).metas txId =
      if cleanup.removal.metadata then none else some info := by
    rw [removeStaged]
    split_ifs
    · exact Function.update_self _ _ _
    · exact hinfo
  unfold VotesDecide
  rw [hcommit, habortTx]
  constructor
  · intro hdecide
    by_contra hkept
    rw [if_neg hkept] at hmetas
    exact not_ended_of_prepared hmetas hstate (hdecide herr).2.2
  · intro hremoved _
    rw [if_pos hremoved] at hmetas
    exact ⟨rfl, rfl, ended_of_none (hown.of_keeps (e.keeps_removeStaged txId _)) hmetas⟩

theorem votesDecide_of_commit (hinfo : e.metas txId = some info) (hstate : info.state = .prepared)
    (hvotes : ∀ v ∈ votes, v.vote = .commit) :
    VotesDecide H e txId votes tag timestamp pass cleanup ↔
      ∀ prepare, info.preparedManifest = some prepare →
        ∀ node ∈ prepare.participants, ∃ v ∈ votes, v.nodeId = node := by
  obtain ⟨e', m, hcommit⟩ :
      ∃ e' m, e.commit2pc H txId votes tag timestamp pass cleanup = (e', .ok m) :=
    commit2pc_of_prepared hinfo hstate (firstAbort_eq_none_iff.mpr hvotes)
  unfold VotesDecide
  rw [hcommit]
  constructor
  · intro hdecide prepare hprepare node hnode
    obtain ⟨v, hv, hvnode, -⟩ := (hdecide info prepare hinfo hprepare).1 node hnode
    exact ⟨v, hv, hvnode⟩
  · intro hheard info' prepare hinfo' hprepare
    obtain rfl : info = info' := Option.some.inj (hinfo.symm.trans hinfo')
    refine ⟨fun node hnode => ?_, hvotes⟩
    obtain ⟨v, hv, hvnode⟩ := hheard prepare hprepare node hnode
    exact ⟨v, hv, hvnode, hvotes v hv⟩

/-- On every engine that calls have led to, the votes decide exactly if everybody is heard and a
transaction that is aborted can be removed. -/
theorem votesDecide_iff_allHeard (hrun : Calls H nodeId (fun _ _ => True) h e) :
    VotesDecide H e txId votes tag timestamp pass cleanup ↔
      AllHeard e txId votes cleanup.removal := by
  by_cases hprepared : ∃ info, e.metas txId = some info ∧ info.state = .prepared
  · obtain ⟨info, hinfo, hstate⟩ := hprepared
    have hall : AllHeard e txId votes cleanup.removal ↔
        ((∃ v ∈ votes, v.vote ≠ .commit) → cleanup.removal.metadata = true) ∧
        ((∀ v ∈ votes, v.vote = .commit) → ∀ prepare, info.preparedManifest = some prepare →
          ∀ node ∈ prepare.participants, ∃ v ∈ votes, v.nodeId = node) := by
      constructor
      · exact fun hheard => hheard info hinfo hstate
      · intro hheard info' hinfo' _
        obtain rfl : info = info' := Option.some.inj (hinfo.symm.trans hinfo')
        exact hheard
    rw [hall]
    by_cases hvotes : ∀ v ∈ votes, v.vote = .commit
    · have hnone : ¬ ∃ v ∈ votes, v.vote ≠ .commit := fun ⟨v, hv, hvote⟩ => hvote (hvotes v hv)
      rw [votesDecide_of_commit hinfo hstate hvotes]
      exact ⟨fun hheard => ⟨fun habort => absurd habort hnone, fun _ => hheard⟩, fun hheard =>
        hheard.2 hvotes⟩
    · have habort : ∃ v ∈ votes, v.vote ≠ .commit := by
        push Not at hvotes
        exact hvotes
      rw [votesDecide_of_abort hrun.owned hinfo hstate habort]
      exact ⟨fun hremoved => ⟨fun _ => hremoved, fun hall => absurd hall hvotes⟩, fun hheard =>
        hheard.1 habort⟩
  · have hinfo : ∀ info, e.metas txId = some info → info.state ≠ .prepared :=
      fun info hinfo hstate => hprepared ⟨info, hinfo, hstate⟩
    exact ⟨fun _ info hinfo' hstate => absurd hstate (hinfo info hinfo'), fun _ =>
      votesDecide_of_unprepared hinfo⟩

def awaited : List Call :=
  [.beginTx none 0 1 0, .prepare2pc "tx-1-00000000" ["n2"] .sorted]

theorem calls_awaited : Calls (fun _ => .zero) "n1" (fun _ _ => True)
    (runCalls (fun _ => .zero) "n1" awaited).1 (runCalls (fun _ => .zero) "n1" awaited).2 :=
  calls_runCalls awaited

theorem votesDecide_iff_awaited :
    VotesDecide (fun _ => .zero) (runCalls (fun _ => .zero) "n1" awaited).2 "tx-1-00000000" [] none 0
        .sorted .full ↔
      AllHeard (runCalls (fun _ => .zero) "n1" awaited).2 "tx-1-00000000" [] .full :=
  votesDecide_iff_allHeard calls_awaited

/-- It is committed without any vote. -/
theorem not_votesDecide_awaited : ∃ h e, Calls (fun _ => .zero) "n1" (fun _ _ => True) h e ∧
    ¬ VotesDecide (fun _ => .zero) e "tx-1-00000000" [] none 0 .sorted .full := by
  refine ⟨_, _, calls_awaited, fun hdecide => ?_⟩
  obtain ⟨info, hinfo, hstate, prepare, hprepare, hnode⟩ : ∃ info,
      (runCalls (fun _ => .zero) "n1" awaited).2.metas "tx-1-00000000" = some info ∧
      info.state = .prepared ∧ ∃ prepare, info.preparedManifest = some prepare ∧
      prepare.participants = ["n2"] := ⟨_, rfl, rfl, _, rfl, rfl⟩
  have hheard := (votesDecide_of_commit hinfo hstate (by simp)).mp hdecide prepare hprepare "n2"
  rw [hnode] at hheard
  obtain ⟨v, hv, -⟩ := hheard (by simp)
  cases hv

end Velcrux.TxSnapshot
