import Velcrux.Foundations.Noninterference
import Velcrux.Session.Denial

/-!
# Which denied requests reveal nothing

STAT and LIST never reveal anything, and an upload, a download and a directory sync are authorized
before anything is looked up. The others reveal whether a hidden entry has their key, and RESUME
whether a hidden transfer has its id.
-/

namespace Velcrux.Session

open Protocol State Noninterference List IdempotencyLedger SqliteStateStore
open Auth (Op)

variable {path : String} {id : TransferId} {r : TransferRecord} {m : Wire.Resume}

namespace Deployment

variable {dep : Deployment} {d d' : ServerData}

theorem not_hidden_of_grants {op : Op} (h : dep.grants op path = true) : ¬ dep.Hidden path := by
  intro hh
  rw [hh op] at h
  cases h

theorem getTransfer_eq_ok_iff {s : SqliteStateStore} :
    s.getTransfer id = .ok r ↔ s.transfers.find? (fun r => r.transferId = id) = some r := by
  unfold getTransfer
  cases s.transfers.find? fun r => r.transferId = id <;> simp

theorem mem_of_getTransfer {s : SqliteStateStore}
    (h : s.getTransfer id = .ok r) : r ∈ s.transfers ∧ r.transferId = id := by
  have hfind := getTransfer_eq_ok_iff.mp h
  exact ⟨List.mem_of_find?_eq_some hfind, by simpa using List.find?_some hfind⟩

theorem getTransfer_of_visible
    (hsame : d.store.transfers.filter (fun r => ¬ dep.Hidden r.remotePath) =
      d'.store.transfers.filter (fun r => ¬ dep.Hidden r.remotePath)) (h : d.store.getTransfer id = .ok r)
    (hv : ¬ dep.Hidden r.remotePath) : d'.store.getTransfer id = .ok r := by
  obtain ⟨hmem, rfl⟩ := mem_of_getTransfer h
  exact getTransfer_eq_ok_iff.mpr
    (find?_key_of_visible hsame d'.ids_nodup hmem (by simpa using hv))

/-! ## STAT and LIST -/

theorem handleStat_cases (g : Gatekeeper) (s : SqliteStateStore) (q : Wire.StatQuery) :
    (∃ r, s.getTransfer q.transferId = .ok r ∧ g.grants .list r.remotePath = true ∧
        handleStat g (some s) q = statOf r) ∨
      (∀ r, s.getTransfer q.transferId = .ok r → g.grants .list r.remotePath = false) ∧
        handleStat g (some s) q = statMissing q.transferId "missing" := by
  cases hget : s.getTransfer q.transferId with
  | error e =>
    refine .inr ⟨?_, by simp [handleStat, hget]⟩
    rintro r ⟨⟩
  | ok r =>
    cases hg : g.grants .list r.remotePath with
    | true => exact .inl ⟨r, rfl, hg, by simp [handleStat, hget, hg]⟩
    | false =>
      refine .inr ⟨?_, by simp [handleStat, hget, hg]⟩
      rintro _ ⟨⟩
      exact hg

theorem handleStat_eq (h : dep.SameVisible d d') (q : Wire.StatQuery) :
    handleStat dep.gatekeeper (some d.store) q = handleStat dep.gatekeeper (some d'.store) q := by
  rcases handleStat_cases dep.gatekeeper d.store q with ⟨r, hget, hg, he⟩ | ⟨hno, he⟩
  · have hget' := getTransfer_of_visible h.transfers hget (not_hidden_of_grants hg)
    rcases handleStat_cases dep.gatekeeper d'.store q with ⟨r', hr', -, he'⟩ | ⟨hno', -⟩
    · rw [hget'] at hr'
      obtain rfl := Except.ok.inj hr'
      rw [he, he']
    · have hdenied := hno' r hget'
      rw [hg] at hdenied
      cases hdenied
  · rcases handleStat_cases dep.gatekeeper d'.store q with ⟨r', hr', hg', -⟩ | ⟨-, he'⟩
    · have hback := getTransfer_of_visible h.transfers.symm hr' (not_hidden_of_grants hg')
      have hdenied := hno r' hback
      rw [hg'] at hdenied
      cases hdenied
    · rw [he, he']

instance : IsTrans TransferRecord fun r r' => r.createdMs ≤ r'.createdMs :=
  ⟨fun _ _ _ h h' => Nat.le_trans h h'⟩

instance : Std.Total fun r r' : TransferRecord => r.createdMs ≤ r'.createdMs :=
  ⟨fun r r' => Nat.le_total r.createdMs r'.createdMs⟩

theorem handleList_eq_filter (g : Gatekeeper) (s : SqliteStateStore) (q : Wire.ListQuery) :
    handleList g (some s) q =
      let like := q.urlPrefix.toList.dropWhile (· = '/') ++ ['%']
      if maxLikePattern < Storage.byteLen like then ⟨[]⟩
      else
        ⟨((((s.transfers.filter fun r => g.grants .list r.remotePath).filter
            fun r => r.role = .server).filter fun r => sqlLike like r.remotePath.toList).insertionSort
            fun r r' => r.createdMs ≤ r'.createdMs).map statOf⟩ := by
  unfold handleList listTransfersByPath
  dsimp only
  by_cases hlong : maxLikePattern <
      Storage.byteLen (q.urlPrefix.toList.dropWhile (· = '/') ++ ['%'])
  · by_cases hrows : s.transfers.filter (fun r => r.role = .server) = []
    · simp [hlong, hrows]
    · simp [hlong, hrows]
  · rw [if_neg hlong, if_neg fun hc => hlong hc.1]
    dsimp only
    rw [filter_insertionSort]
    simp only [filter_filter]
    congr 4
    funext r
    cases g.grants .list r.remotePath <;> simp

theorem handleList_eq (h : dep.SameVisible d d') (q : Wire.ListQuery) :
    handleList dep.gatekeeper (some d.store) q = handleList dep.gatekeeper (some d'.store) q := by
  -- a row that may be listed is not hidden
  have hlisted : ∀ l : List TransferRecord,
      l.filter (fun r => dep.grants .list r.remotePath) =
        (l.filter fun r => ¬ dep.Hidden r.remotePath).filter
          fun r => dep.grants .list r.remotePath := by
    intro l
    rw [filter_filter]
    refine filter_congr fun r _ => ?_
    cases hg : dep.grants .list r.remotePath with
    | false => rfl
    | true => simp [not_hidden_of_grants hg]
  have hrows : d.store.transfers.filter (fun r => dep.grants .list r.remotePath) =
      d'.store.transfers.filter (fun r => dep.grants .list r.remotePath) := by
    rw [hlisted, hlisted d'.store.transfers, h.transfers]
  rw [handleList_eq_filter, handleList_eq_filter]
  simp only [gatekeeper, hrows]

theorem handleResume_cases (g : Gatekeeper) (s : SqliteStateStore) (m : Wire.Resume) :
    (∃ r, resumeRecord s m = some r ∧ g.grants (resumeOp r) r.remotePath = true ∧
        handleResume g (some s) m = .resumeState (resumeStateOf s r)) ∨
      (∀ r, resumeRecord s m = some r → g.grants (resumeOp r) r.remotePath = false) ∧
        handleResume g (some s) m = .answer (.error .notFound) := by
  cases hrec : resumeRecord s m with
  | none =>
    refine .inr ⟨?_, by simp [handleResume, hrec]⟩
    rintro r ⟨⟩
  | some r =>
    cases hg : g.grants (resumeOp r) r.remotePath with
    | true => exact .inl ⟨r, rfl, hg, by simp [handleResume, hrec, hg]⟩
    | false =>
      refine .inr ⟨?_, by simp [handleResume, hrec, hg]⟩
      rintro _ ⟨⟩
      exact hg

theorem resumeRecord_eq (hall : ∀ path, ¬ dep.Hidden path) (h : dep.SameVisible d d')
    (m : Wire.Resume) : resumeRecord d.store m = resumeRecord d'.store m := by
  have hrows := h.transfers
  simp only [hall, not_false_eq_true, decide_true, filter_true] at hrows
  unfold resumeRecord getTransfer getTransferByIdempotency
  rw [hrows]

theorem revealsNothing_resume_of_discreet (h : dep.Discreet (.resume m)) :
    dep.RevealsNothing (.resume m) := by
  rintro d d' ⟨hstore, r, hr, hdenied⟩ hsame
  simp only [reply, hstore, if_true]
  have hfirst : handleResume dep.gatekeeper (some d.store) m = .answer (.error .notFound) := by
    rcases handleResume_cases dep.gatekeeper d.store m with ⟨r', hr', hg, -⟩ | ⟨-, he⟩
    · rw [hr] at hr'
      obtain rfl := Option.some.inj hr'
      have hg' : dep.grants (resumeOp r) r.remotePath = true := hg
      rw [hdenied] at hg'
      cases hg'
    · exact he
  rw [hfirst]
  rcases handleResume_cases dep.gatekeeper d'.store m with ⟨r', hr', hg, -⟩ | ⟨-, he⟩
  · have hg' : dep.grants (resumeOp r') r'.remotePath = true := hg
    rcases h with hno | hall | hnone
    · rw [hstore] at hno
      cases hno
    · rw [← resumeRecord_eq hall hsame, hr] at hr'
      obtain rfl := Option.some.inj hr'
      rw [hdenied] at hg'
      cases hg'
    · obtain ⟨hresume, hdownload⟩ := hnone r'.remotePath
      unfold resumeOp at hg'
      cases hd : r'.direction with
      | upload =>
        rw [hd] at hg'
        exact absurd hg' (by simp [hresume])
      | download =>
        rw [hd] at hg'
        exact absurd hg' (by simp [hdownload])
  · exact he.symm

/-! ## States that differ in one hidden entry -/

def bareRecord (id : TransferId) (key path : String) (direction : Direction) : TransferRecord where
  transferId := id
  idempotencyKey := key
  role := .server
  direction := direction
  status := .active
  remotePath := path
  localPath := ""
  fileSize := 0
  fileHash := .zero
  verifiedUpTo := 0
  lastCheckpointMs := 0
  bytesCompleted := 0
  stagingRelpath := ""
  createdMs := 0
  updatedMs := 0

def otherId (id : TransferId) : TransferId :=
  if id.bytes = List.replicate 16 0 then ⟨List.replicate 16 1, rfl⟩ else .zero

theorem otherId_ne (id : TransferId) : otherId id ≠ id := by
  unfold otherId
  split_ifs with h
  · intro he
    rw [← he] at h
    exact absurd h (by decide)
  · intro he
    exact h (he ▸ rfl)

def oneTransfer (m : Wire.Resume) (path : String) (direction : Direction) : ServerData where
  ledger := .new
  store := ⟨[bareRecord (otherId m.transferId) m.idempotencyKey path direction], fun _ => ∅, []⟩
  files := fun _ => none
  ids_nodup := nodup_singleton _
  keys_nodup := nodup_singleton _

def twoTransfers (m : Wire.Resume) (path : String) (direction : Direction) (other : String) :
    ServerData where
  ledger := .new
  store := ⟨[bareRecord m.transferId (m.idempotencyKey ++ "x") other .upload,
    bareRecord (otherId m.transferId) m.idempotencyKey path direction], fun _ => ∅, []⟩
  files := fun _ => none
  ids_nodup := by
    have hne := (otherId_ne m.transferId).symm
    simpa [bareRecord] using hne
  keys_nodup := by simp [bareRecord]

theorem sameVisible_twoTransfers {other : String} {direction : Direction}
    (hhidden : dep.Hidden other) :
    dep.SameVisible (twoTransfers m path direction other) (oneTransfer m path direction) where
  ledger _ _ := rfl
  transfers := by
    have hdrop : (decide ¬ dep.Hidden other) = false := by simp [hhidden]
    simp only [twoTransfers, oneTransfer, bareRecord, filter_cons, hdrop, Bool.false_eq_true,
      if_false]
  bitmaps _ _ _ := rfl
  files _ _ := rfl

/-- A hidden transfer under the id keeps RESUME from the one under the key. -/
theorem discreet_resume_of_revealsNothing (h : dep.RevealsNothing (.resume m)) :
    dep.Discreet (.resume m) := by
  by_contra hnot
  simp only [Discreet, not_or, Bool.not_eq_false, not_forall, not_not, not_and_or] at hnot
  obtain ⟨hstore, ⟨other, hother⟩, path, hpath⟩ := hnot
  obtain ⟨direction, hgrant⟩ : ∃ direction, dep.grants
      (resumeOp (bareRecord (otherId m.transferId) m.idempotencyKey path direction)) path = true := by
    rcases hpath with hresume | hdownload
    · exact ⟨.upload, by simpa [resumeOp, bareRecord] using hresume⟩
    · exact ⟨.download, by simpa [resumeOp, bareRecord] using hdownload⟩
  have hfirst : resumeRecord (twoTransfers m path direction other).store m =
      some (bareRecord m.transferId (m.idempotencyKey ++ "x") other .upload) := by
    simp [resumeRecord, getTransfer, twoTransfers, bareRecord]
  have hsecond : resumeRecord (oneTransfer m path direction).store m =
      some (bareRecord (otherId m.transferId) m.idempotencyKey path direction) := by
    simp [resumeRecord, getTransfer, getTransferByIdempotency,
      oneTransfer, bareRecord, otherId_ne, Except.toOption]
  have hsame : dep.SameVisible (twoTransfers m path direction other) (oneTransfer m path direction) :=
    sameVisible_twoTransfers hother
  have heq := h _ _ ⟨hstore, _, hfirst, hother _⟩ hsame
  have hno : handleResume dep.gatekeeper (some (twoTransfers m path direction other).store) m =
      .answer (.error .notFound) := by
    have hdeny : dep.gatekeeper.grants .resume other = false := hother .resume
    simp [handleResume, hfirst, resumeOp, bareRecord, hdeny]
  have hyes : handleResume dep.gatekeeper (some (oneTransfer m path direction).store) m =
      .resumeState (resumeStateOf (oneTransfer m path direction).store
        (bareRecord (otherId m.transferId) m.idempotencyKey path direction)) := by
    have hallow : dep.gatekeeper.grants (resumeOp (bareRecord (otherId m.transferId)
      m.idempotencyKey path direction)) path = true := hgrant
    unfold handleResume
    dsimp only
    rw [hsecond]
    exact if_pos hallow
  simp only [reply, hstore, if_true, hno, hyes] at heq
  cases heq

/-! ## TRANSFER_CREATE -/

section Create

variable {create : TransferCreate}

theorem authorize_of_denied
    (h : (requiredGrants create).all (fun c => dep.grants c.1 c.2) = false) :
    authorize dep.gatekeeper (requiredGrants create) = some (.error .notFound) := by
  have hgrants : (requiredGrants create).all (fun c => dep.gatekeeper.grants c.1 c.2) = false := h
  unfold authorize
  rw [hgrants]
  rfl

def ledgerFirst (create : TransferCreate) : Bool :=
  create.op ∈ [TransferOp.delete, .syncDelete, .symlink, .hardlink, .setXattr]

def refusal (dep : Deployment) (create : TransferCreate) : Option Refusal :=
  if create.op ∈ [TransferOp.delete, .syncDelete] then
    dep.policy.refusal dep.isAdmin dep.withinRate
  else none

theorem admission_of_denied (h : (requiredGrants create).all (fun c => dep.grants c.1 c.2) = false)
    (ledger : Option IdempotencyLedger) (store : Option SqliteStateStore) :
    (admission dep.debug ledger store create dep.newId dep.gatekeeper).1 =
      if ledgerFirst create then
        match refusal dep create with
        | some e => some (.error e)
        | none =>
          some (((ledgerGate dep.debug ledger store create dep.newId).1).getD (.error .notFound))
      else some (.error .notFound) := by
  have hauth := authorize_of_denied h
  have hgate : (ledgerThenAuthorize dep.debug ledger store create dep.newId dep.gatekeeper).1 =
      some (((ledgerGate dep.debug ledger store create dep.newId).1).getD (.error .notFound)) := by
    unfold ledgerThenAuthorize
    cases hg : (ledgerGate dep.debug ledger store create dep.newId).1 with
    | none => simp [hg, hauth]
    | some a => simp [hg]
  cases hop : create.op with
  | upload | download | syncUpload | syncDownload => simp [admission, ledgerFirst, hop, hauth]
  | symlink | hardlink | setXattr => simp [admission, ledgerFirst, refusal, hop, hgate]
  | delete | syncDelete =>
    cases hr : dep.policy.refusal dep.isAdmin dep.withinRate with
    | some e => simp [admission, ledgerFirst, refusal, gatekeeper, hop, hr]
    | none =>
      rw [gatekeeper, hr] at hgate
      simp [admission, ledgerFirst, refusal, gatekeeper, hop, hr, hgate]

theorem discreet_create_iff :
    dep.Discreet (.create create) ↔
      (requiredGrants create).all (fun c => dep.grants c.1 c.2) = true ∨
        ledgerFirst create = false ∨ (refusal dep create).isSome = true ∨ dep.hasLedger = false ∨
        create.idempotencyKey = "" ∨ ∀ path, ¬ dep.Hidden path := by
  cases hop : create.op <;> simp [Discreet, ledgerFirst, refusal, hop]

theorem ledgerGate_silent (h : dep.hasLedger = false ∨ create.idempotencyKey = "")
    (d : ServerData) (store : Option SqliteStateStore) :
    (ledgerGate dep.debug (if dep.hasLedger then some d.ledger else none) store create
      dep.newId).1 = none := by
  unfold ledgerGate keyedLedger
  rcases h with h | h <;> simp [h]

theorem ledgerGate_eq (hall : ∀ path, ¬ dep.Hidden path) (h : dep.SameVisible d d') :
    (ledgerGate dep.debug (if dep.hasLedger then some d.ledger else none)
        (if dep.hasStore then some d.store else none) create dep.newId).1 =
      (ledgerGate dep.debug (if dep.hasLedger then some d'.ledger else none)
        (if dep.hasStore then some d'.store else none) create dep.newId).1 := by
  have hrows := h.transfers
  simp only [hall, not_false_eq_true, decide_true, filter_true] at hrows
  have hledger : d.ledger = d'.ledger := by
    have hentries : d.ledger.entries = d'.ledger.entries := by
      have htrue : ∀ o : Option LedgerEntry, o.filter (fun _ => true) = o := by
        intro o
        cases o <;> rfl
      funext role key
      have hentry := h.ledger role key
      simp only [hall, not_false_eq_true, decide_true] at hentry
      rwa [htrue, htrue] at hentry
    exact congrArg IdempotencyLedger.mk hentries
  have hkey : (if dep.hasStore then some d.store else none).bind (fun s =>
      (s.getTransferByIdempotency .server create.idempotencyKey).toOption) =
      (if dep.hasStore then some d'.store else none).bind (fun s =>
      (s.getTransferByIdempotency .server create.idempotencyKey).toOption) := by
    unfold getTransferByIdempotency
    cases dep.hasStore with
    | false => rfl
    | true => simp only [if_true, Option.bind_some, hrows]
  unfold ledgerGate evaluateTransferCreate
  rw [hledger]
  rw [hkey]

theorem revealsNothing_create_of_discreet (h : dep.Discreet (.create create)) :
    dep.RevealsNothing (.create create) := by
  intro d d' hdenied hsame
  simp only [reply, admission_of_denied hdenied]
  rcases discreet_create_iff.mp h with hg | hn | hp | hs | hk | hall
  · rw [hdenied] at hg
    cases hg
  · simp only [hn, Bool.false_eq_true, if_false]
  · obtain ⟨e, he⟩ := Option.isSome_iff_exists.mp hp
    simp only [he]
  · rw [ledgerGate_silent (.inl hs), ledgerGate_silent (.inl hs)]
  · rw [ledgerGate_silent (.inr hk), ledgerGate_silent (.inr hk)]
  · rw [ledgerGate_eq hall hsame]

def oneEntry (key path : String) (id : TransferId) : ServerData where
  ledger := new.insert .server key ⟨id, path, 0, .committed, none⟩
  store := .empty
  files := fun _ => none
  ids_nodup := nodup_nil
  keys_nodup := nodup_nil

def nothing : ServerData where
  ledger := .new
  store := .empty
  files := fun _ => none
  ids_nodup := nodup_nil
  keys_nodup := nodup_nil

theorem sameVisible_oneEntry {key : String} (hhidden : dep.Hidden path) :
    dep.SameVisible (oneEntry key path id) nothing where
  ledger role k := by
    simp only [oneEntry, nothing, IdempotencyLedger.insert, IdempotencyLedger.new]
    split_ifs <;> simp [hhidden]
  transfers := rfl
  bitmaps _ _ _ := rfl
  files _ _ := rfl

/-- A hidden entry under the key is replayed, or answered as a conflict. -/
theorem ledgerGate_oneEntry (hledger : dep.hasLedger = true) (hkey : create.idempotencyKey ≠ "")
    (path : String) (store : Option SqliteStateStore) :
    (ledgerGate dep.debug (if dep.hasLedger then
      some (oneEntry create.idempotencyKey path dep.newId).ledger else none) store create
      dep.newId).1.getD (.error .notFound) ≠ .error .notFound := by
  have hentry : (oneEntry create.idempotencyKey path dep.newId).ledger.entries .server
      create.idempotencyKey = some ⟨dep.newId, path, 0, .committed, none⟩ := by
    simp [oneEntry, IdempotencyLedger.insert]
  simp only [hledger, if_true, ledgerGate, keyedLedger, hkey, if_false,
    evaluateTransferCreate, hentry, evaluateEntry]
  by_cases hp : path = create.dstPath
  · simp [hp]
  · simp [hp, conflictError, Refusal.notFound]

theorem ledgerGate_nothing (store : Option SqliteStateStore)
    (hstore : store = some nothing.store ∨ store = none) :
    (ledgerGate dep.debug (if dep.hasLedger then some nothing.ledger else none) store create
      dep.newId).1 = none := by
  have hrow : (store.bind fun s =>
      (s.getTransferByIdempotency .server create.idempotencyKey).toOption) = none := by
    rcases hstore with rfl | rfl <;> rfl
  unfold ledgerGate keyedLedger
  by_cases hk : create.idempotencyKey = ""
  · simp [hk]
  · cases dep.hasLedger with
    | false => simp
    | true =>
      simp only [hk, evaluateTransferCreate, hrow]
      rfl

theorem discreet_create_of_revealsNothing (h : dep.RevealsNothing (.create create)) :
    dep.Discreet (.create create) := by
  rw [discreet_create_iff]
  by_contra hnot
  simp only [not_or, Bool.not_eq_true, Bool.not_eq_false, not_forall, not_not] at hnot
  obtain ⟨hdenied, hfirst, hrefusal, hledger, hkey, path, hpath⟩ := hnot
  have heq := h (oneEntry create.idempotencyKey path dep.newId) nothing hdenied
    (sameVisible_oneEntry hpath)
  have hstore : (if dep.hasStore then some nothing.store else none) = some nothing.store ∨
      (if dep.hasStore then some nothing.store else none) = none := by
    cases dep.hasStore
    · exact .inr rfl
    · exact .inl rfl
  rw [Option.isSome_eq_false_iff, Option.isNone_iff_eq_none] at hrefusal
  simp only [reply, admission_of_denied hdenied, hfirst, hrefusal,
    ledgerGate_nothing _ hstore] at heq
  exact ledgerGate_oneEntry hledger hkey path _ (FirstReply.answer.inj heq)

end Create

theorem revealsNothing_stat (q : Wire.StatQuery) : dep.RevealsNothing (.stat q) := by
  rintro d d' ⟨hstore, -⟩ hsame
  simp only [reply, hstore, if_true, handleStat_eq hsame]

theorem revealsNothing_list (q : Wire.ListQuery) : dep.RevealsNothing (.list q) := by
  rintro d d' - hsame
  cases hstore : dep.hasStore with
  | false => simp only [reply, hstore, Bool.false_eq_true, if_false]
  | true => simp only [reply, hstore, if_true, handleList_eq hsame]

/-- **A denied request reveals nothing exactly when it is a discreet one.** -/
theorem revealsNothing_iff (dep : Deployment) (req : Request) :
    dep.RevealsNothing req ↔ dep.Discreet req := by
  cases req with
  | create create =>
    exact ⟨discreet_create_of_revealsNothing, revealsNothing_create_of_discreet⟩
  | resume m => exact ⟨discreet_resume_of_revealsNothing, revealsNothing_resume_of_discreet⟩
  | stat q => exact ⟨fun _ => trivial, fun _ => revealsNothing_stat q⟩
  | list q => exact ⟨fun _ => trivial, fun _ => revealsNothing_list q⟩

def alicesServer : Deployment where
  hasLedger := true
  hasStore := true
  grants op path :=
    (Auth.FileAuthorizer.check ⟨[⟨"alice", "alice", ⟨0xff⟩⟩]⟩ ⟨"alice", "", "", ""⟩ op
      path).toOption.isSome
  policy := .explicitGrant
  isAdmin := true
  withinRate := true
  debug s := "\"" ++ s ++ "\""
  newId := .zero

def alicesDelete : TransferCreate := ⟨.delete, "", "bob/a", "key", 0, .zero⟩

/-- The refusal names the path for which bob used the key. -/
theorem not_revealsNothing_alicesDelete :
    alicesServer.reply (oneEntry "key" "bob/secret" alicesServer.newId) (.create alicesDelete) =
      .answer (.error ⟨.protocolViolation,
        "idempotency conflict: idempotency key \"key\" already used for path \"bob/secret\", received \"bob/a\""⟩) ∧
    alicesServer.reply nothing (.create alicesDelete) = .answer (.error .notFound) ∧
    ¬ alicesServer.RevealsNothing (.create alicesDelete) := by
  have hhidden : alicesServer.Hidden "bob/secret" := by
    intro op
    cases op <;> decide +kernel
  have hdenied : alicesServer.Denied (oneEntry "key" "bob/secret" alicesServer.newId)
      (.create alicesDelete) := by
    show (_ : Bool) = false
    decide +kernel
  refine ⟨by decide +kernel, by decide +kernel, fun h => ?_⟩
  exact absurd (h _ _ hdenied (sameVisible_oneEntry hhidden)) (by decide +kernel)

end Deployment

end Velcrux.Session
