import Velcrux.State.Creation

/-!
# A transfer is created once

While calls with one key do not overlap, the first answer creates the transfer, and from then on the entry
or the record tells every other call.
-/

namespace Velcrux.State

open IdempotencyLedger List Option KeyEvent IdempotencyAction

variable {key : String} {w w' : KeyState} {req : CreateRequest} {id : TransferId}

/-- The sections of one call, without another one in between, do what `evaluate_transfer_create` does. -/
theorem sections_evaluate (l : IdempotencyLedger) (role : Role) (store : Option SqliteStateStore)
    (req : CreateRequest) (newId : TransferId) (hentry : w.entry = l.entries role key)
    (hrecord : w.record = store.bind fun s => (s.getTransferByIdempotency role key).toOption)
    (hcalls : w.calls = []) :
    ∃ sections : List KeyEvent, ∃ w', sections.foldlM (KeyState.step key) w = some w' ∧ w'.calls = [] ∧
      w'.answers =
        (req, (l.evaluateTransferCreate role key req.path req.size store newId).1) :: w.answers ∧
      w'.entry =
        (l.evaluateTransferCreate role key req.path req.size store newId).2.entries role key := by
  obtain ⟨entry, record, calls, answers⟩ := w
  obtain rfl : calls = [] := hcalls
  unfold evaluateTransferCreate
  rw [← hrecord]
  rcases he : l.entries role key with _ | e <;> obtain rfl := hentry.trans he
  · rcases record with _ | r
    · refine ⟨[look req, query req true, write req .fresh newId], _, by simp [KeyState.step]; rfl, ?_⟩
      simp [IdempotencyLedger.insert]
    by_cases hpath : r.remotePath = req.path
    · by_cases hsize : r.fileSize = req.size
      · refine ⟨[look req, query req true, write req (.known r) newId], _,
          by simp [KeyState.step, hpath, hsize]; rfl, ?_⟩
        simp [IdempotencyLedger.insert, hpath, hsize]
      · refine ⟨[look req, query req true], _, by simp [KeyState.step, hpath, hsize]; rfl, ?_⟩
        simp [hpath, hsize, he]
    · refine ⟨[look req, query req true], _, by simp [KeyState.step, hpath]; rfl, ?_⟩
      simp [hpath, he]
  · exact ⟨[look req], _, rfl, rfl, rfl, he.symm⟩

def Created (answers : List (CreateRequest × IdempotencyAction)) (req : CreateRequest) (id : TransferId) :
    Prop :=
  ∃ x ∈ answers, x.1 = req ∧ x.2 = .proceedNew id

structure Settled (w : KeyState) : Prop where
  once : CreatedOnce w.answers
  kept : w.answers ≠ [] → w.entry ≠ none ∨ w.record ≠ none
  entry : ∀ req id, Created w.answers req id → ∀ e, w.entry = some e → e.IsFor id req.path req.size
  record : ∀ req id, Created w.answers req id → ∀ r, w.record = some r → r.IsFor id req.path req.size
  alone : ∀ y ∈ w.calls, w.calls = [y] ∧ w.entry = none
  hash : ∀ y ∈ w.calls, ∀ req id, Created w.answers req id → req.path = y.1.path → req.size = y.1.size →
    req.hash = y.1.hash
  fresh : ∀ y ∈ w.calls, y.2 = .fresh → w.record = none
  known : ∀ y ∈ w.calls, ∀ r, y.2 = .known r → (r.remotePath = y.1.path ∧ r.fileSize = y.1.size) ∧
    w.record ≠ none ∧ ∀ req id, Created w.answers req id → r.IsFor id req.path req.size

variable {req' : CreateRequest}

theorem replays_of {action : IdempotencyAction}
    (hhash : req.path = req'.path → req.size = req'.size → req.hash = req'.hash)
    (hnew : ∀ id', action ≠ .proceedNew id')
    (hsame : req.path = req'.path → req.size = req'.size → action.transferId? = some id)
    (hother : req.path ≠ req'.path ∨ req.size ≠ req'.size → ∃ reason, action = .conflict reason) :
    Replays req id (req', action) := by
  refine ⟨hnew, ?_, fun hne => ?_⟩
  · rintro rfl
    exact hsame rfl rfl
  · by_cases hpath : req.path = req'.path
    · by_cases hsize : req.size = req'.size
      · cases req
        simp_all
      · exact hother (.inr hsize)
    · exact hother (.inl hpath)

theorem evaluateEntry_ne_proceedNew (path : String) (size : ℕ) (e : LedgerEntry) (id : TransferId) :
    evaluateEntry key path size e ≠ .proceedNew id := by
  unfold evaluateEntry
  split_ifs <;> (try cases e.status) <;> simp

theorem evaluateRecord_ne_proceedNew (r : TransferRecord) (id : TransferId) :
    evaluateRecord key r ≠ .proceedNew id := by
  unfold evaluateRecord
  cases r.status <;> simp

theorem replays_evaluateEntry {e : LedgerEntry} (he : e.IsFor id req.path req.size)
    (hhash : req.path = req'.path → req.size = req'.size → req.hash = req'.hash) :
    Replays req id (req', evaluateEntry key req'.path req'.size e) := by
  obtain ⟨rfl, hpath, hsize, hlive⟩ := he
  refine replays_of hhash (evaluateEntry_ne_proceedNew _ _ _) (fun h1 h2 => ?_) (fun h => ?_) <;>
    unfold evaluateEntry <;> rw [hpath, hsize]
  · cases hs : e.status <;> simp_all [transferId?]
  · split_ifs <;> simp_all

theorem replays_evaluateRecord {r : TransferRecord}
    (hr : r.IsFor id req.path req.size) (hmatch : r.remotePath = req'.path ∧ r.fileSize = req'.size)
    (hhash : req.path = req'.path → req.size = req'.size → req.hash = req'.hash) :
    Replays req id (req', evaluateRecord key r) := by
  obtain ⟨rfl, hpath, hsize, hlive⟩ := hr
  refine replays_of hhash (evaluateRecord_ne_proceedNew r) (fun _ _ => ?_) (fun h => ?_)
  · unfold evaluateRecord
    cases hs : r.status <;> simp_all [transferId?]
  · rw [← hpath, ← hsize, hmatch.1, hmatch.2] at h
    simp at h

variable {x : CreateRequest × IdempotencyAction}

theorem created_cons (hnew : ∀ id', x.2 ≠ .proceedNew id')
    (hc : Created (x :: w.answers) req id) : Created w.answers req id := by
  obtain ⟨y, hy, hreq, hid⟩ := hc
  rcases mem_cons.mp hy with rfl | hy
  · exact absurd hid (hnew id)
  · exact ⟨y, hy, hreq, hid⟩

theorem Settled.answer (h : Settled w) {entry : Option LedgerEntry}
    (hnew : ∀ id', x.2 ≠ .proceedNew id') (hx : ∀ req id, Created w.answers req id → Replays req id x)
    (hkept : entry ≠ none ∨ w.record ≠ none)
    (hentry : ∀ req id, Created w.answers req id → ∀ e, entry = some e → e.IsFor id req.path req.size) :
    Settled { w with entry := entry, calls := [], answers := x :: w.answers } := by
  refine ⟨pairwise_cons.mpr ⟨fun y hy => ⟨fun id hid => absurd hid (hnew id),
      fun id hid => hx y.1 id ⟨y, hy, rfl, hid⟩⟩, h.once⟩, fun _ => hkept, fun req id hc => ?_,
    fun req id hc => ?_, by simp, by simp, by simp, by simp⟩
  · exact hentry req id (created_cons hnew hc)
  · exact h.record req id (created_cons hnew hc)

theorem Settled.stage (h : Settled w) (hentry : w.entry = none) {y : CreateRequest × CallStage}
    (hhash : ∀ req id, Created w.answers req id → req.path = y.1.path → req.size = y.1.size →
      req.hash = y.1.hash) (hfresh : y.2 = .fresh → w.record = none)
    (hknown : ∀ r, y.2 = .known r → (r.remotePath = y.1.path ∧ r.fileSize = y.1.size) ∧
      w.record ≠ none ∧ ∀ req id, Created w.answers req id → r.IsFor id req.path req.size) :
    Settled { w with calls := [y] } := by
  refine ⟨h.once, h.kept, h.entry, h.record, ?_, ?_, ?_, ?_⟩ <;>
    simp only [mem_singleton, forall_eq]
  exacts [⟨trivial, hentry⟩, hhash, hfresh, hknown]

theorem Settled.refuse (h : Settled w) {y : CreateRequest × CallStage} (hy : y ∈ w.calls) {r : TransferRecord}
    (hr : w.record = some r) (hdiff : r.remotePath ≠ y.1.path ∨ r.fileSize ≠ y.1.size)
    (reason : ConflictReason) :
    Settled { w with calls := w.calls.erase y, answers := (y.1, .conflict reason) :: w.answers } := by
  rw [(h.alone y hy).1, erase_cons_head]
  refine h.answer (by simp) (fun req id hc => ?_) (.inr (by simp [hr])) h.entry
  obtain ⟨-, hpath, hsize, -⟩ := h.record req id hc r hr
  refine replays_of (h.hash y hy req id hc) (by simp) (fun h1 h2 => ?_) fun _ => ⟨reason, rfl⟩
  rw [hpath, hsize] at hdiff
  exact absurd hdiff (by simp [h1, h2])

theorem Settled.mark (h : Settled w) {f : LedgerEntry → LedgerEntry}
    (hf : ∀ e, (f e).transferId = e.transferId ∧ (f e).remotePath = e.remotePath ∧
      (f e).expectedSize = e.expectedSize ∧ (f e).status ≠ .cancelled) :
    Settled { w with entry := w.entry.map f } := by
  refine ⟨h.once, fun hne => (h.kept hne).imp_left (by simp), fun req id hc e he => ?_, h.record,
    fun y hy => ⟨(h.alone y hy).1, by simp [(h.alone y hy).2]⟩, h.hash, h.fresh, h.known⟩
  obtain ⟨e0, he0, rfl⟩ := map_eq_some_iff.mp he
  obtain ⟨hid, hpath, hsize, -⟩ := h.entry req id hc e0 he0
  obtain ⟨hid', hpath', hsize', hlive⟩ := hf e0
  exact ⟨hid'.trans hid, hpath'.trans hpath, hsize'.trans hsize, hlive⟩

theorem Settled.step {event : KeyEvent} (h : Settled w) (hok : InTurn w event)
    (hstep : w.step key event = some w') : Settled w' := by
  cases event with
  | look req =>
    rw [KeyState.step] at hstep
    split at hstep
    · rename_i e he
      obtain rfl := some.inj hstep
      rw [hok.1]
      refine h.answer (evaluateEntry_ne_proceedNew _ _ _) (fun req' id hc => ?_)
        (.inl (by simp [he])) h.entry
      obtain ⟨x, hx, rfl, hid⟩ := hc
      exact replays_evaluateEntry (h.entry _ id ⟨x, hx, rfl, hid⟩ e he) (hok.2 x hx id hid)
    · rename_i he
      obtain rfl := some.inj hstep
      rw [hok.1]
      refine h.stage he ?_ nofun nofun
      rintro _ id ⟨x, hx, rfl, hid⟩
      exact hok.2 x hx id hid
  | query req read =>
    have hread : (if read then w.record else none) = w.record := by
      rcases hok with rfl | hnone
      · rfl
      · rw [hnone, ite_self]
    rw [KeyState.step, hread] at hstep
    split_ifs at hstep with hy
    obtain ⟨halone, hentry⟩ := h.alone _ hy
    split at hstep
    · rename_i hr
      obtain rfl := some.inj hstep
      rw [halone, erase_cons_head]
      exact h.stage hentry (h.hash (req, .missed) hy) (fun _ => hr) nofun
    · rename_i r hr
      split_ifs at hstep with hpath hsize
      · obtain rfl := some.inj hstep
        exact h.refuse hy hr (.inl hpath) _
      · obtain rfl := some.inj hstep
        exact h.refuse hy hr (.inr hsize) _
      · obtain rfl := some.inj hstep
        rw [halone, erase_cons_head]
        refine h.stage hentry (h.hash (req, .missed) hy) nofun fun r' hknown => ?_
        obtain rfl := CallStage.known.inj hknown
        exact ⟨⟨not_not.mp hpath, not_not.mp hsize⟩, by simp [hr],
          fun req id hc => h.record req id hc r hr⟩
  | write req stage newId =>
    rw [KeyState.step] at hstep
    split_ifs at hstep with hy
    obtain ⟨halone, hentry⟩ := h.alone _ hy
    cases stage with
    | missed => cases hstep
    | known r =>
      obtain rfl := some.inj hstep
      obtain ⟨hmatch, hsome, hfor⟩ := h.known _ hy r rfl
      rw [halone, erase_cons_head]
      refine h.answer (evaluateRecord_ne_proceedNew r) (fun req' id hc => replays_evaluateRecord
        (hfor req' id hc) hmatch (h.hash _ hy req' id hc)) (.inr hsome) fun req' id hc e he => ?_
      obtain rfl := some.inj he
      obtain ⟨hid, hpath, hsize, hlive⟩ := hfor req' id hc
      exact ⟨hid, hmatch.1 ▸ hpath, hmatch.2 ▸ hsize, hlive⟩
    | fresh =>
      obtain rfl := some.inj hstep
      have hnone : w.answers = [] := by
        by_contra hne
        rcases h.kept hne with hsome | hsome
        · exact hsome hentry
        · exact hsome (h.fresh _ hy rfl)
      rw [halone, hnone]
      refine ⟨pairwise_singleton _ _, fun _ => .inl (by simp), ?_, ?_, by simp, by simp, by simp, by simp⟩
      · rintro req' id ⟨x, hx, rfl, hid⟩ e he
        obtain rfl := mem_singleton.mp hx
        obtain rfl := some.inj he
        exact ⟨proceedNew.inj hid, rfl, rfl, by simp⟩
      · intro req' id _ r hr
        exact absurd hr (by simp [h.fresh _ hy rfl])
  | markCommitted files =>
    obtain rfl := some.inj hstep
    exact h.mark (fun e => ⟨rfl, rfl, rfl, by simp⟩)
  | markResumable =>
    obtain rfl := some.inj hstep
    exact h.mark (fun e => ⟨rfl, rfl, rfl, by simp⟩)
  | markCancelled => exact hok.elim
  | save record =>
    obtain rfl := some.inj hstep
    obtain ⟨hkeep, hgets⟩ := hok
    have hrecord : ∀ r', record = some r' → ∀ req id, Created w.answers req id →
        r'.IsFor id req.path req.size := by
      intro r' hr' req id hc
      cases hr : w.record with
      | some r =>
        obtain ⟨r'', hr'', hfor⟩ := hkeep r hr
        obtain rfl := some.inj (hr'.symm.trans hr'')
        exact hfor _ _ _ (h.record req id hc r hr)
      | none =>
        obtain ⟨e, he, hid, hpath, hsize, hlive⟩ := hgets hr r' hr'
        obtain ⟨hid', hpath', hsize', -⟩ := h.entry req id hc e he
        exact ⟨hid.trans hid', hpath.trans hpath', hsize.trans hsize', hlive⟩
    have hsome : w.record ≠ none → record ≠ none := by
      intro hne
      obtain ⟨r, hr⟩ := ne_none_iff_exists'.mp hne
      obtain ⟨r', hr', -⟩ := hkeep r hr
      simp [hr']
    refine ⟨h.once, fun hne => (h.kept hne).imp_right hsome, h.entry,
      fun req id hc r hr => hrecord r hr req id hc, h.alone, h.hash, fun y hy hfresh => ?_,
      fun y hy r hr => ?_⟩
    · by_contra hne
      obtain ⟨r', hr'⟩ := ne_none_iff_exists'.mp hne
      obtain ⟨e, he, -⟩ := hgets (h.fresh y hy hfresh) r' hr'
      exact absurd he (by simp [(h.alone y hy).2])
    · obtain ⟨hmatch, hne, hfor⟩ := h.known y hy r hr
      exact ⟨hmatch, hsome hne, hfor⟩
  | restart =>
    obtain rfl := some.inj hstep
    refine ⟨h.once, fun hne => .inr ?_, by simp, h.record, by simp, by simp, by simp, by simp⟩
    rcases h.kept hne with hsome | hsome
    · exact hok hsome
    · exact hsome

/-- In every run whose steps are in turn, a transfer is created once and replayed. -/
theorem createdOnce_of_inTurn {h : List (KeyState × KeyEvent)} (hrun : KeyRun key InTurn h w) :
    CreatedOnce w.answers := by
  refine (Transition.Run.invariant (I := fun _ w => Settled w) ?_ ?_ hrun).once
  · rintro w ⟨hentry, hcalls, hanswers⟩
    refine ⟨?_, ?_, ?_, ?_, ?_, ?_, ?_, ?_⟩ <;> simp [hcalls, hanswers, CreatedOnce, Created]
  · rintro h w event w' - hsettled hok hstep
    exact hsettled.step hok hstep

def unused : KeyState := ⟨none, none, [], []⟩

def upload : CreateRequest := ⟨"f", 1, .zero⟩

def idOf (b : UInt8) : TransferId := ⟨List.replicate 16 b, by simp⟩

/-- Three calls: the second is answered with the transfer of the first, the third asks for another path. -/
theorem createdOnce_upload : ∃ h w, KeyRun "k" InTurn h w ∧
    w.answers.map (·.2.transferId?) = [none, some (idOf 1), some (idOf 1)] ∧ CreatedOnce w.answers := by
  have h0 : KeyRun "k" InTurn _ unused := .start ⟨rfl, rfl, rfl⟩
  have h1 := h0.step (e := look upload) ⟨rfl, by simp [unused]⟩ rfl
  have h2 := h1.step (e := query upload true) (.inl rfl) rfl
  have h3 := h2.step (e := write upload .fresh (idOf 1)) trivial rfl
  have h4 := h3.step (e := look upload) ⟨rfl, by simp [unused]⟩ rfl
  have h5 := h4.step (e := look { upload with path := "g" }) ⟨rfl, by simp [unused, upload]⟩ rfl
  exact ⟨_, _, h5, rfl, createdOnce_of_inTurn h5⟩

/-- Two calls look the key up before either has written it: both create a transfer. -/
theorem not_createdOnce_upload : ∃ h w, KeyRun "k" (fun _ _ => True) h w ∧ ¬ CreatedOnce w.answers := by
  have h0 : KeyRun "k" (fun _ _ => True) _ unused := .start ⟨rfl, rfl, rfl⟩
  have h1 := h0.step (e := look upload) trivial rfl
  have h2 := h1.step (e := look upload) trivial rfl
  have h3 := h2.step (e := query upload true) trivial rfl
  have h4 := h3.step (e := query upload true) trivial rfl
  have h5 := h4.step (e := write upload .fresh (idOf 1)) trivial rfl
  have h6 := h5.step (e := write upload .fresh (idOf 2)) trivial rfl
  refine ⟨_, _, h6, fun honce => ?_⟩
  have hpair := (pairwise_cons.mp honce).1 (upload, .proceedNew (idOf 1)) mem_cons_self
  exact (hpair.1 (idOf 2) rfl).1 (idOf 1) rfl

end Velcrux.State
