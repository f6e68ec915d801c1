import Velcrux.TxSnapshot.Conflicts
import Velcrux.TxSnapshot.Proofs.SuccessionProofs

/-!
# No update is lost if versions are current

A commit raises the revision of every path that it stages. So once a transaction is committed with
current versions, no other one that expects the same version can meet that condition.
-/

namespace Velcrux.TxSnapshot

open List Option Function Engine StageCall SortedMap

variable {H : HashFn} {nodeId : String} {e e' : Engine} {h : History} {txId : String}
  {info : ActiveTxMeta}

namespace Engine

/-- The metadata of a transaction after a call that does not stage: it was there, with the same staged
operations, and it was not committed unless it is now. -/
def Keeps (e e' : Engine) : Prop :=
  ∀ txId info', e'.metas txId = some info' → ∃ info, e.metas txId = some info ∧
    info'.stagedOps = info.stagedOps ∧ info'.txId = info.txId ∧
    (info.state = .committed → info'.state = .committed)

theorem Keeps.refl (e : Engine) : e.Keeps e := fun _ info hinfo => ⟨info, hinfo, rfl, rfl, id⟩

theorem Keeps.trans {e1 e2 e3 : Engine} (h : e1.Keeps e2) (h' : e2.Keeps e3) : e1.Keeps e3 := by
  intro txId info3 hinfo3
  obtain ⟨info2, hinfo2, hops2, hid2, hstate2⟩ := h' txId info3 hinfo3
  obtain ⟨info1, hinfo1, hops1, hid1, hstate1⟩ := h txId info2 hinfo2
  exact ⟨info1, hinfo1, hops2.trans hops1, hid2.trans hid1, hstate2 ∘ hstate1⟩

theorem keeps_saveTxMeta {info' : ActiveTxMeta} (hinfo : e.metas txId = some info)
    (hid : info.txId = txId) (hops : info'.stagedOps = info.stagedOps) (hid' : info'.txId = info.txId)
    (hstate : info.state = .committed → info'.state = .committed) : e.Keeps (e.saveTxMeta info') := by
  intro id info1 hinfo1
  by_cases heq : id = info'.txId
  · subst heq
    rw [e.metas_saveTxMeta rfl] at hinfo1
    rw [hid', hid, ← some.inj hinfo1]
    exact ⟨info, hinfo, hops, hid', hstate⟩
  · rw [e.metas_saveTxMeta_of_ne heq] at hinfo1
    exact ⟨info1, hinfo1, rfl, rfl, fun hstate => hstate⟩

theorem metas_removeStaged {id : String} {removal : Removal}
    (hinfo : (e.removeStaged txId removal).metas id = some info) : e.metas id = some info := by
  rw [removeStaged] at hinfo
  dsimp only at hinfo
  split_ifs at hinfo
  · by_cases heq : id = txId
    · rw [heq] at hinfo
      exact absurd hinfo (by simp)
    · rwa [update_of_ne heq] at hinfo
  · exact hinfo

theorem keeps_removeStaged (e : Engine) (txId : String) (removal : Removal) :
    e.Keeps (e.removeStaged txId removal) :=
  fun _ info hinfo => ⟨info, metas_removeStaged hinfo, rfl, rfl, fun hstate => hstate⟩

theorem keeps_abortTx (e : Engine) (txId : String) (removal : Removal) :
    e.Keeps (e.abortTx txId removal) := by
  rw [abortTx]
  split
  · exact .refl e
  · exact e.keeps_removeStaged txId removal

@[simp] theorem catalog_abortTx (e : Engine) (txId : String) (removal : Removal) :
    (e.abortTx txId removal).catalog = e.catalog := by
  rw [abortTx]
  split <;> rfl

theorem keeps_finish2pc {cleanup : Cleanup} (hinfo : e.metas txId = some info) (hid : info.txId = txId) :
    e.Keeps (e.finish2pc txId info cleanup) := by
  refine Keeps.trans ?_ (keeps_removeStaged _ txId cleanup.removal)
  split_ifs
  · exact keeps_saveTxMeta hinfo hid rfl rfl fun _ => rfl
  · exact .refl e

end Engine

theorem StageCall.run_error {call : StageCall} (herr : (call.run H e txId).2.isOk = false) :
    (call.run H e txId).1 = e := by
  cases call <;>
  · simp only [run, stageFile, stageDelete] at herr ⊢
    split
    · rfl
    · rename_i info hload
      rw [hload] at herr
      dsimp only at herr ⊢
      split_ifs with hstate
      · rfl
      · rw [if_neg hstate] at herr
        exact absurd herr (by simp [Except.toBool])

namespace Engine

def Owned (e : Engine) : Prop := ∀ txId info, e.metas txId = some info → info.txId = txId

theorem Owned.of_keeps (hown : e.Owned) (hkeeps : e.Keeps e') : e'.Owned := by
  intro id info' hinfo'
  obtain ⟨info, hinfo, -, hid, -⟩ := hkeeps id info' hinfo'
  rw [hid]
  exact hown id info hinfo

theorem Owned.saveTxMeta (hown : e.Owned) (info : ActiveTxMeta) : (e.saveTxMeta info).Owned := by
  intro id info' hinfo'
  by_cases heq : id = info.txId
  · rw [heq, e.metas_saveTxMeta rfl] at hinfo'
    rw [heq, ← some.inj hinfo']
  · rw [e.metas_saveTxMeta_of_ne heq] at hinfo'
    exact hown id info' hinfo'

theorem prepare2pc_cases (e : Engine) (txId : String) (participants : List String)
    (pass : Iteration (String × StagedFileOp)) : (e.prepare2pc H txId participants pass).1 = e ∨
      ∃ info prepare, e.metas txId = some info ∧ info.state = .active ∧
        (e.prepare2pc H txId participants pass).1 =
          e.saveTxMeta { info with state := .prepared, preparedManifest := some prepare } := by
  cases hprepare : e.prepare2pc H txId participants pass with
  | mk e' result =>
    cases result with
    | error err => exact .inl (prepare2pc_error hprepare)
    | ok prepare =>
      obtain ⟨info, hinfo⟩ := prepare2pc_ok hprepare
      exact .inr ⟨info, prepare, hinfo⟩

theorem keeps_prepare2pc (hown : e.Owned) (txId : String) (participants : List String)
    (pass : Iteration (String × StagedFileOp)) : e.Keeps (e.prepare2pc H txId participants pass).1 := by
  rcases e.prepare2pc_cases txId participants pass with heq | ⟨info, prepare, hinfo, hstate, heq⟩
  · rw [heq]
    exact .refl e
  · rw [heq]
    exact keeps_saveTxMeta hinfo (hown txId info hinfo) rfl rfl fun hc => absurd (hstate.symm.trans hc) (by simp)

theorem keeps_commit2pc (hown : e.Owned) (txId : String) (votes : List TwoPhaseVote)
    (tag : Option String) (timestamp : ℕ) (pass : Iteration (String × StagedFileOp))
    (cleanup : Cleanup) : e.Keeps (e.commit2pc H txId votes tag timestamp pass cleanup).1 := by
  cases hcommit : e.commit2pc H txId votes tag timestamp pass cleanup with
  | mk e' result =>
    cases result with
    | error err =>
      rcases commit2pc_error hcommit with rfl | ⟨-, -, rfl⟩
      · exact .refl _
      · exact e.keeps_abortTx txId _
    | ok m =>
      obtain ⟨info, c, versions, hinfo, -, -, rfl⟩ := commit2pc_ok hcommit
      exact keeps_finish2pc hinfo
        (hown txId info hinfo)

theorem stage_cases (e : Engine) (call : StageCall) (txId : String) :
    (call.run H e txId).1 = e ∨ ∃ info data, e.metas txId = some info ∧ info.state = .active ∧
      (call.run H e txId).1 = { e with data := data }.saveTxMeta { info with
        stagedOps := info.stagedOps.insert call.path (call.op H) } := by
  cases hok : (call.run H e txId).2 with
  | error err => exact .inl (run_error (by rw [hok]; rfl))
  | ok op =>
    obtain ⟨info, hinfo, hstate, -⟩ := call.run_ok_iff.mp hok
    obtain ⟨data, hrun⟩ := call.run_active hinfo hstate
    exact .inr ⟨info, data, hinfo, hstate, hrun⟩

theorem step_same (e : Engine) (call : Call) (hcall : ∀ txId votes tag timestamp pass cleanup,
      call ≠ .commit2pc txId votes tag timestamp pass cleanup) :
    (e.step H call).catalog = e.catalog := by
  cases call with
  | beginTx author nanos secs createdSecs => rfl
  | stage txId call =>
    rcases e.stage_cases call txId with heq | ⟨info, data, -, -, heq⟩
    · rw [step, heq]
    · rw [step, heq]
      rfl
  | prepare2pc txId participants pass =>
    rcases e.prepare2pc_cases txId participants pass with heq | ⟨info, prepare, -, -, heq⟩
    · rw [step, heq]
    · rw [step, heq]
      rfl
  | vote2pc prepare => rfl
  | commit2pc txId votes tag timestamp pass cleanup => exact absurd rfl (hcall _ _ _ _ _ _)
  | abortTx txId removal =>
    rw [step, abortTx]
    split <;> rfl

theorem Owned.step (hown : e.Owned) (call : Call) : (e.step H call).Owned := by
  cases call with
  | beginTx author nanos secs createdSecs => exact hown.saveTxMeta _
  | stage txId call =>
    rcases stage_cases e call txId with heq | ⟨info, data, -, -, heq⟩ <;>
      rw [Engine.step, heq]
    · exact hown
    · exact Owned.saveTxMeta hown _
  | prepare2pc txId participants pass => exact hown.of_keeps (keeps_prepare2pc hown txId _ _)
  | vote2pc prepare => exact hown
  | commit2pc txId votes tag timestamp pass cleanup =>
    exact hown.of_keeps (keeps_commit2pc hown txId _ _ _ _ _)
  | abortTx txId removal => exact hown.of_keeps (e.keeps_abortTx txId removal)

end Engine

theorem Calls.owned {ok : Engine → Call → Prop} (hrun : Calls H nodeId ok h e) : e.Owned := by
  refine Transition.Run.invariant (I := fun _ e => e.Owned) ?_ ?_ hrun
  · rintro e rfl txId info hinfo
    exact absurd hinfo (by simp [new])
  · intro h e call e' _ hown _ hstep
    obtain rfl := some.inj hstep
    exact hown.step call

structure Tracked (H : HashFn) (h : History) (e : Engine) : Prop where
  staged : ∀ txId info x, e.metas txId = some info → begunAs H txId h = some x →
    ∀ call ∈ x.staged, ∀ b, call.base = some b →
      ∃ op, info.stagedOps.get? call.path = some op ∧ op.expectedBaseVersion = some b
  raised : ∀ x ∈ committed H h, ∀ call ∈ x.staged, ∀ b, call.base = some b →
    b < e.catalog.latest call.path
  safe : NoLostUpdate H h

theorem Tracked.frame {h' : History} (ht : Tracked H h e) (hkeeps : e.Keeps e')
    (hcatalog : e'.catalog = e.catalog) (hbegun : ∀ id, begunAs H id h' = begunAs H id h)
    (hcommitted : committed H h' = committed H h) : Tracked H h' e' where
  staged id info' x hinfo' hx call hcall b hb := by
    obtain ⟨info, hinfo, hops, -⟩ := hkeeps id info' hinfo'
    rw [hbegun] at hx
    rw [hops]
    exact ht.staged id info x hinfo hx call hcall b hb
  raised := by
    rw [hcommitted, hcatalog]
    exact ht.raised
  safe := by
    rw [NoLostUpdate, hcommitted]
    exact ht.safe

theorem Tracked.beginTx (ht : Tracked H h e) (author : Option String) (nanos secs createdSecs : ℕ) :
    Tracked H ((e, .beginTx author nanos secs createdSecs) :: h)
      (e.beginTx H author nanos secs createdSecs).1 where
  staged id info x hinfo hx call hcall b hb := by
    rw [begunAs] at hx
    split_ifs at hx with hid
    · rw [← some.inj hx] at hcall
      cases hcall
    · rw [Engine.beginTx, Engine.metas_saveTxMeta_of_ne _ (Ne.symm hid)] at hinfo
      exact ht.staged id info x hinfo hx call hcall b hb
  raised := ht.raised
  safe := ht.safe

theorem Tracked.stage (ht : Tracked H h e) (hown : e.Owned) {call : StageCall}
    (hcurrent : Current e (.stage txId call)) :
    Tracked H ((e, .stage txId call) :: h) (call.run H e txId).1 := by
  cases hok : (call.run H e txId).2 with
  | error err =>
    have herr : (call.run H e txId).2.isOk = false := by rw [hok]; rfl
    rw [run_error herr]
    refine ht.frame (.refl e) rfl (fun id => ?_) rfl
    rw [begunAs, if_neg (by rw [herr]; simp)]
  | ok op =>
    obtain ⟨info, hinfo, hstate, -⟩ := call.run_ok_iff.mp hok
    obtain ⟨data, hrun⟩ := call.run_active hinfo hstate
    have hid := hown txId info hinfo
    rw [hrun]
    refine ⟨fun id info' x hinfo' hx call' hcall' b hb => ?_, ht.raised, ht.safe⟩
    dsimp only at hinfo'
    rw [begunAs] at hx
    by_cases heq : txId = id
    · subst heq
      rw [hid, update_self] at hinfo'
      rw [if_pos ⟨rfl, by rw [hok]; rfl⟩] at hx
      obtain ⟨x0, hx0, rfl⟩ := map_eq_some_iff.mp hx
      rw [← some.inj hinfo']
      rw [get?_insert]
      rcases mem_cons.mp hcall' with rfl | hold
      · exact ⟨_, if_pos rfl, call'.op_base.trans hb⟩
      · obtain ⟨op', hop', hbase'⟩ := ht.staged txId info x0 hinfo hx0 call' hold b hb
        split_ifs with hpath
        · -- the operation is replaced by one that expects the same version
          refine ⟨_, rfl, call.op_base.trans ?_⟩
          rw [← hpath] at hop'
          exact hcurrent info hinfo op' hop' b hbase'
        · exact ⟨op', hop', hbase'⟩
    · rw [hid, update_of_ne (Ne.symm heq)] at hinfo'
      rw [if_neg fun hc => heq hc.1] at hx
      exact ht.staged id info' x hinfo' hx call' hcall' b hb

theorem Tracked.commit2pc (ht : Tracked H h e) (hown : e.Owned) {votes : List TwoPhaseVote}
    {tag : Option String} {timestamp : ℕ} {pass : Iteration (String × StagedFileOp)} {cleanup : Cleanup}
    (hcurrent : Current e (.commit2pc txId votes tag timestamp pass cleanup)) :
    Tracked H ((e, .commit2pc txId votes tag timestamp pass cleanup) :: h)
      (e.commit2pc H txId votes tag timestamp pass cleanup).1 := by
  have hkeeps := keeps_commit2pc (H := H) hown txId votes tag timestamp pass cleanup
  cases hcommit : e.commit2pc H txId votes tag timestamp pass cleanup with
  | mk e' result =>
    rw [hcommit] at hkeeps
    cases result with
    | error err =>
      have hcatalog : e'.catalog = e.catalog := by
        rcases commit2pc_error hcommit with rfl | ⟨-, -, rfl⟩
        · rfl
        · exact e.catalog_abortTx txId _
      refine ht.frame hkeeps hcatalog (fun id => rfl) ?_
      rw [committed, hcommit]
      rfl
    | ok m =>
      obtain ⟨info, c, versions, hinfo, hc, -, rfl⟩ := commit2pc_ok hcommit
      have hcommitted : committed H ((e, .commit2pc txId votes tag timestamp pass cleanup) :: h) =
          (begunAs H txId h).toList ++ committed H h := by
        rw [committed, hcommit]
        rfl
      -- what the new transaction expects is what its paths have
      have hexpect : ∀ x, begunAs H txId h = some x → ∀ call ∈ x.staged, ∀ b, call.base = some b →
          e.catalog.latest call.path = b ∧ b < c.catalog.latest call.path := by
        intro x hx call hcall b hb
        obtain ⟨op, hop, hbase⟩ := ht.staged txId info x hinfo hx call hcall b hb
        have hlatest := hcurrent info hinfo call.path op hop b hbase
        have hmem : (call.path, op) ∈ pass.order info.stagedOps.entries :=
          (pass.perm _).mem_iff.mpr ((mem_entries_iff _).mpr hop)
        have hraise := Commit.latest_lt_promoteAll
          (c := .start e.nodeId txId info votes tag timestamp e.catalog) hmem
        rw [← hc] at hraise
        exact ⟨hlatest, hlatest ▸ hraise⟩
      have hmono : ∀ p, e.catalog.latest p ≤ c.catalog.latest p := fun p => by
        rw [hc]
        exact (Commit.start e.nodeId txId info votes tag timestamp e.catalog).latest_le_promoteAll _ p
      have hcross : ∀ x y, begunAs H txId h = some x → y ∈ committed H h → ∀ path b,
          x.Expects path b → y.Expects path b → False := by
        rintro x y hx hy path b ⟨⟨call, hcall, hpath, hb⟩, -⟩ ⟨⟨call', hcall', hpath', hb'⟩, -⟩
        have hlatest := (hexpect x hx call hcall b hb).1
        have hraised := ht.raised y hy call' hcall' b hb'
        rw [hpath', ← hpath, hlatest] at hraised
        exact absurd hraised (lt_irrefl b)
      refine ⟨fun id info' x hinfo' hx call hcall b hb => ?_, fun x hx call hcall b hb => ?_,
        fun x hx y hy hne path b hxe hye => ?_⟩
      · obtain ⟨info1, hinfo1, hops1, -⟩ := hkeeps id info' hinfo'
        rw [hops1]
        exact ht.staged id info1 x hinfo1 hx call hcall b hb
      · rw [catalog_finish2pc]
        rw [hcommitted] at hx
        rcases mem_append.mp hx with hnew | hold
        · exact (hexpect x (mem_toList.mp hnew) call hcall b hb).2
        · exact (ht.raised x hold call hcall b hb).trans_le (hmono call.path)
      · rw [hcommitted] at hx hy
        rcases mem_append.mp hx with hx | hx <;> rcases mem_append.mp hy with hy | hy
        · have hxy := (mem_toList.mp hx).symm.trans (mem_toList.mp hy)
          exact hne (congrArg Begun.number (some.inj hxy))
        · exact hcross x y (mem_toList.mp hx) hy path b hxe hye
        · exact hcross y x (mem_toList.mp hy) hx path b hye hxe
        · exact ht.safe x hx y hy hne path b hxe hye

/-- In every run whose calls are current, no update is lost. -/
theorem noLostUpdate_of_current (hrun : Calls H nodeId Current h e) : NoLostUpdate H h := by
  refine Tracked.safe (Transition.Run.invariant ?_ ?_ hrun)
  · rintro e rfl
    refine ⟨?_, ?_, ?_⟩ <;> simp [new, committed, NoLostUpdate]
  · intro h e call e' hbefore ht hcurrent hstep
    have hown : e.Owned := Calls.owned hbefore
    obtain rfl := some.inj hstep
    cases call with
    | beginTx author nanos secs createdSecs => exact ht.beginTx author nanos secs createdSecs
    | stage txId call => exact ht.stage hown hcurrent
    | prepare2pc txId participants pass =>
      exact ht.frame (keeps_prepare2pc hown txId participants pass)
        (e.step_same _ (by simp)) (fun id => rfl) rfl
    | vote2pc prepare => exact ht.frame (.refl e) rfl (fun id => rfl) rfl
    | commit2pc txId votes tag timestamp pass cleanup => exact ht.commit2pc hown hcurrent
    | abortTx txId removal =>
      exact ht.frame (e.keeps_abortTx txId removal) (e.step_same _ (by simp)) (fun id => rfl) rfl

def currentCheck (e : Engine) : Call → Bool
  | .commit2pc txId _ _ _ _ _ => (e.metas txId).all fun info => info.stagedOps.entries.all
      fun x => x.2.expectedBaseVersion.all fun b => e.catalog.latest x.1 == b
  | .stage txId call => (e.metas txId).all fun info => (info.stagedOps.get? call.path).all
      fun op => op.expectedBaseVersion.all fun b => call.base == some b
  | _ => true

theorem current_of_check {call : Call} (h : currentCheck e call = true) : Current e call := by
  cases call with
  | commit2pc =>
    simp only [currentCheck, Option.all_eq_true, List.all_eq_true, beq_iff_eq] at h
    exact fun info hinfo path op hop b hb => h info hinfo (path, op) (info.stagedOps.mem_entries_iff.mpr hop) b hb
  | stage =>
    simp only [currentCheck, Option.all_eq_true, beq_iff_eq] at h
    exact h
  | _ => trivial

/-- Three transactions on one path. The second finds a newer version when it is prepared and is
aborted; the third was staged for that version. -/
def queueing : List Call :=
  [.beginTx none 0 1 0, .beginTx none 0 2 0, .beginTx none 0 3 0,
    .stage "tx-1-00000000" (.file "a" [1] (some 0) 0), .stage "tx-2-00000000" (.file "a" [2] (some 0) 0),
    .stage "tx-3-00000000" (.file "a" [3] (some 1) 0), .prepare2pc "tx-1-00000000" [] .sorted,
    .commit2pc "tx-1-00000000" [] none 0 .sorted .full, .prepare2pc "tx-2-00000000" [] .sorted,
    .abortTx "tx-2-00000000" .full, .prepare2pc "tx-3-00000000" [] .sorted,
    .commit2pc "tx-3-00000000" [] none 0 .sorted .full]

theorem noLostUpdate_queueing : ∃ h e, Calls (fun _ => .zero) "n1" Current h e ∧
    (committed (fun _ => .zero) h).map Begun.staged =
      [[.file "a" [3] (some 1) 0], [.file "a" [1] (some 0) 0]] ∧ NoLostUpdate (fun _ => .zero) h := by
  have hex : ((Transition.exec (fun e call => some (e.step (fun _ => .zero) call)) currentCheck []
      (.new "n1") queueing).any fun r =>
      (committed (fun _ => .zero) r.1).map Begun.staged ==
        [[.file "a" [3] (some 1) 0], [.file "a" [1] (some 0) 0]]) = true := by decide
  obtain ⟨⟨h, e⟩, hexec, hstaged⟩ := (Option.any_eq_true _ _).mp hex
  have hstart : Calls (fun _ => .zero) "n1" (fun e call => currentCheck e call = true) [] _ :=
    .start rfl
  have hrun : Calls (fun _ => .zero) "n1" Current h e :=
    (Transition.run_exec hstart hexec).imp fun _ _ _ _ hcheck => current_of_check hcheck
  exact ⟨h, e, hrun, beq_iff_eq.mp hstaged, noLostUpdate_of_current hrun⟩

def runCalls (H : HashFn) (nodeId : String) (calls : List Call) : History × Engine :=
  calls.foldl (fun s call => ((s.2, call) :: s.1, s.2.step H call)) ([], .new nodeId)

theorem calls_runCalls (calls : List Call) : Calls H nodeId (fun _ _ => True)
    (runCalls H nodeId calls).1 (runCalls H nodeId calls).2 := by
  induction calls using List.reverseRecOn with
  | nil => exact .start rfl
  | append_singleton calls call ih =>
    rw [runCalls, foldl_concat]
    exact .step ih trivial rfl

def rivals : List Call :=
  [.beginTx none 0 1 0, .beginTx none 0 2 0,
    .stage "tx-1-00000000" (.file "a" [1] (some 0) 0), .stage "tx-2-00000000" (.file "a" [2] (some 0) 0),
    .prepare2pc "tx-1-00000000" [] .sorted, .prepare2pc "tx-2-00000000" [] .sorted,
    .commit2pc "tx-1-00000000" [] none 0 .sorted .full,
    .commit2pc "tx-2-00000000" [] none 0 .sorted .full]

/-- Both are committed. -/
theorem not_noLostUpdate_rivals : ∃ h e, Calls (fun _ => .zero) "n1" (fun _ _ => True) h e ∧
    ¬ NoLostUpdate (fun _ => .zero) h := by
  refine ⟨_, _, calls_runCalls rivals, fun hsafe => ?_⟩
  have hboth : (committed (fun _ => .zero) (runCalls (fun _ => .zero) "n1" rivals).1).map
      (fun x => (x.number, x.staged, x.engine.catalog.latest "a")) =
        [(1, [.file "a" [2] (some 0) 0], 0), (0, [.file "a" [1] (some 0) 0], 0)] := by decide
  have hmem : ∀ y ∈ [(1, [file "a" [2] (some 0) 0], 0), (0, [.file "a" [1] (some 0) 0], 0)],
      ∃ x ∈ committed (fun _ => .zero) (runCalls (fun _ => .zero) "n1" rivals).1,
        (x.number, x.staged, x.engine.catalog.latest "a") = y := fun y hy =>
    mem_map.mp (hboth ▸ hy)
  obtain ⟨x, hx, hxeq⟩ := hmem _ mem_cons_self
  obtain ⟨y, hy, hyeq⟩ := hmem _ (mem_cons_of_mem _ mem_cons_self)
  obtain ⟨hxn, hxs, hxl⟩ := by simpa only [Prod.mk.injEq] using hxeq
  obtain ⟨hyn, hys, hyl⟩ := by simpa only [Prod.mk.injEq] using hyeq
  refine hsafe x hx y hy (by rw [hxn, hyn]; decide) "a" 0
    ⟨⟨.file "a" [2] (some 0) 0, ?_, by decide, rfl⟩, hxl.le⟩
    ⟨⟨.file "a" [1] (some 0) 0, ?_, by decide, rfl⟩, hyl.le⟩
  · rw [hxs]
    exact mem_cons_self
  · rw [hys]
    exact mem_cons_self

end Velcrux.TxSnapshot
