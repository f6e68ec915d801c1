import Velcrux.Sync.Proofs.CommitTurnProofs

/-!
# Proofs: recovery of the journaled commit

A crash leaves the turns before it done, one turn somewhere in between, and the turns after it not
begun; the recovery depends only on the row of the turn in between.
-/

namespace Velcrux.Sync

open Posix Posix.FileSystem Resumption Resumption.Prog List
open State (CommitJournalEntry SqliteStateStore)

namespace CommitSetting

variable {c : CommitSetting} {e : StagedFile} {L done todo : List StagedFile}
variable {w s : SyncWorld} {store : SqliteStateStore}

theorem Settled.pending_others (hset : c.Settled done store) :
    ∀ row ∈ store.pendingJournal, row.transferId ≠ c.transferId := by
  intro row hrow htid
  obtain ⟨hin, hstatus⟩ := mem_filter.mp hrow
  exact of_decide_eq_true hstatus (hset.only row hin htid).1

theorem Standing.recovered (hs : Standing c L w done todo s) (hset : c.Settled done s.store)
    (hL : c.Staged L w) (hlinks : c.NoLinkedDirs L w) (hsplit : L = done ++ todo) :
    c.Recovered L w s := by
  have hrows : ∀ e ∈ todo, ¬ c.HasRow e s := by
    rintro e he ⟨row, hrow, htid, hid⟩
    obtain ⟨-, e', he', hid'⟩ := hset.only row hrow htid
    have hids := hL.ids
    rw [hsplit, map_append] at hids
    exact (nodup_append.mp hids).2.2 _ (mem_map_of_mem he') _ (mem_map_of_mem he)
      (hid'.symm.trans hid)
  refine ⟨hset.pending_others, fun e he hrow => ?_, fun e he hrow => ?_, hs.others⟩
  · have hdone : e ∈ done := by
      rw [hsplit] at he
      exact (mem_append.mp he).resolve_right fun htodo => hrows e htodo hrow
    obtain ⟨x, hx, -⟩ := hL.object e he
    have hsome : (content w (c.stagedFile e)).isSome := by
      rw [content, hx]
      rfl
    have hfinal := hs.done_final e hdone
    rw [holds_of_some hsome, ← hfinal]
    exact holds_of_some (hfinal ▸ hsome)
  · have htodo : e ∈ todo := by
      have hin := he
      rw [hsplit] at hin
      exact (mem_append.mp hin).resolve_left fun hdone => hrow (hset.each e hdone)
    rw [holds_of_plain (hs.plain e htodo), holds_of_plain (hlinks e he)]
    exact hs.todo_final e htodo

theorem resumeLoop_others {rows more : List CommitJournalEntry}
    (h : ∀ row ∈ rows, row.transferId ≠ c.transferId) :
    c.resumeLoop (rows ++ more) = c.resumeLoop more := by
  induction rows with
  | nil => rfl
  | cons row rows ih =>
    rw [cons_append, resumeLoop, if_pos (h row mem_cons_self)]
    exact ih fun row' hrow' => h row' (mem_cons_of_mem _ hrow')

theorem works_resume : c.resumeInterruptedCommit.works s =
    (c.resumeLoop s.store.pendingJournal).works s := rfl

theorem Settled.resume (hset : c.Settled done s.store) :
    c.resumeInterruptedCommit.works s = (s, .ok 0) := by
  rw [works_resume, ← append_nil s.store.pendingJournal, resumeLoop_others hset.pending_others]
  rfl

theorem Opened.resume (hopen : c.Opened done e s.store) :
    c.resumeInterruptedCommit.works s = (c.resumeRow (c.journalEntry e)).works s := by
  obtain ⟨old, hset, hstore⟩ := hopen
  have hpending : s.store.pendingJournal = old.pendingJournal ++ [c.journalEntry e] := by
    rw [hstore, SqliteStateStore.pendingJournal, filter_append]
    rfl
  have htid : (c.journalEntry e).transferId = c.transferId := rfl
  rw [works_resume, hpending, resumeLoop_others hset.pending_others, resumeLoop,
    if_neg (not_not_intro htid), works_bind]
  rcases (c.resumeRow (c.journalEntry e)).works s with ⟨s', r⟩
  cases r <;> rfl

/-! ## Recovery in the middle of a turn -/

variable {s' s1 s2 : SyncWorld}

theorem resumeRow_staged (h : s.fs.pathExists (c.stagedFile e) = true) :
    (c.resumeRow (c.journalEntry e)).works s = ((c.makeParents e).bind fun _ =>
      (fsTry fun fs => fs.rename (c.stagedFile e) (c.finalDst e)).bind fun _ =>
        (c.markCommitted e).bind fun _ => .ret 1).works s :=
  works_bind_pathExists h

theorem resumeRow_final (h : s.fs.pathExists (c.stagedFile e) = false)
    (h' : s.fs.pathExists (c.finalDst e) = true) :
    (c.resumeRow (c.journalEntry e)).works s =
      ((c.markCommitted e).bind fun _ => .ret 1).works s :=
  (works_bind_pathExists h).trans (works_bind_pathExists h')

theorem resumeRow_neither (h : s.fs.pathExists (c.stagedFile e) = false)
    (h' : s.fs.pathExists (c.finalDst e) = false) :
    ∃ err, (c.resumeRow (c.journalEntry e)).works s = (s, .error err) :=
  ⟨_, (works_bind_pathExists h).trans (works_bind_pathExists h')⟩

theorem Moved.recovered (hm : Moved c L w done e todo s) : ∃ after,
    ((c.markCommitted e).bind fun _ => .ret 1).works s = (after, .ok 1) ∧ c.Recovered L w after := by
  obtain ⟨store, hmark, hstanding, hset⟩ := hm.marks
  refine ⟨{ s with store }, works_bind_ok hmark, ?_⟩
  refine hstanding.recovered hset hm.around.staged hm.around.links ?_
  rw [hm.around.split, append_assoc]
  rfl

theorem Moved.recovers_iff (hm : Moved c L w done e todo s) :
    c.Recovers L w s ↔ s.fs.pathExists (c.finalDst e) = true := by
  have hstaged : s.fs.pathExists (c.stagedFile e) = false :=
    pathExists_of_none hm.plain_staged hm.gone
  constructor
  · rintro ⟨after, n, hworks, -⟩
    by_contra hfinal
    obtain ⟨err, herr⟩ := resumeRow_neither hstaged (Bool.not_eq_true _ ▸ hfinal)
    rw [hm.opened.resume, herr] at hworks
    cases hworks
  · intro hfinal
    obtain ⟨after, hworks, hrec⟩ := hm.recovered
    exact ⟨after, 1, by rw [hm.opened.resume, resumeRow_final hstaged hfinal, hworks], hrec⟩

theorem Moved.pathExists_of_not_link (hm : Moved c L w done e todo s)
    (hlink : ¬ ∃ t, content w (c.stagedFile e) = some (.link t)) :
    s.fs.pathExists (c.finalDst e) = true := by
  obtain ⟨x, hx, -⟩ := hm.around.staged.object e hm.around.mem
  have harrived := hm.arrived
  have hsome : content w (c.stagedFile e) = some (contentOf x) := by
    rw [content, hx]
    rfl
  rw [hsome, content, Option.map_eq_some_iff] at harrived
  obtain ⟨y, hy, heq⟩ := harrived
  refine pathExists_of_node hy fun t ht => hlink ⟨t, ?_⟩
  rw [hsome, ← heq, ht]
  rfl

namespace Waiting

variable (hw : Waiting c L w done e todo s)
include hw

theorem makeParents_again : ∃ fs, (c.makeParents e).works s = ({ s with fs }, .ok ()) ∧
    ∀ q, fs.node q = s.fs.node q := by
  have hdirs : ∀ q, q <+: (c.finalDst e).dropLast → s.fs.node q = none ∨ s.fs.node q = some .dir :=
    fun q hq => .inr (dir_of_prefix_dir hw.parent hq)
  obtain ⟨fs, hfs, hafter⟩ := createDirAll_ok hdirs
  refine ⟨fs, works_fsTry_ok hfs, fun q => ?_⟩
  rw [hafter]
  split_ifs with hq
  · exact (dir_of_prefix_dir hw.parent hq).symm
  · rfl

theorem recovers (hfinal : s.fs.node (c.finalDst e) ≠ some .dir)
    (hstaged : s.fs.pathExists (c.stagedFile e) = true) : c.Recovers L w s := by
  obtain ⟨fs, hfs, hsame⟩ := hw.makeParents_again
  have hw1 : Waiting c L w done e todo { s with fs } := hw.of_final (fun q _ => hsame q) rfl
  obtain ⟨fs', hfs', hm⟩ := hw1.rename (by rwa [hsame])
  obtain ⟨after, hworks, hrec⟩ := hm.recovered
  refine ⟨after, 1, ?_, hrec⟩
  rw [hw.opened.resume, resumeRow_staged hstaged, works_bind_ok hfs, works_bind_ok hfs', hworks]

/-- With a directory at the destination the rename fails, or a link is taken for moved. -/
theorem not_recovers_dir (hfinal : s.fs.node (c.finalDst e) = some .dir) : ¬ c.Recovers L w s := by
  rintro ⟨after, n, hworks, hrec⟩
  rw [hw.opened.resume] at hworks
  cases hstaged : s.fs.pathExists (c.stagedFile e) with
  | true =>
    obtain ⟨fs, hfs, hsame⟩ := hw.makeParents_again
    have hw1 : Waiting c L w done e todo { s with fs } := hw.of_final (fun q _ => hsame q) rfl
    obtain ⟨err, herr⟩ := hw1.rename_dir (by rwa [hsame])
    rw [resumeRow_staged hstaged, works_bind_ok hfs, works_bind_error herr] at hworks
    cases hworks
  | false =>
    have hthere : s.fs.pathExists (c.finalDst e) = true :=
      pathExists_of_node hfinal fun t h => (by cases h)
    obtain ⟨store, hstore, hset⟩ := hw.opened.marks
    have hmark : (c.markCommitted e).works s = ({ s with store }, .ok ()) := works_storeTry_ok hstore
    rw [resumeRow_final hstaged hthere, works_bind_ok hmark] at hworks
    cases hworks
    have hrow : c.HasRow e { s with store } :=
      hset.each e (mem_append_right _ (mem_singleton_self _))
    have hholds := hrec.written e hw.around.mem hrow
    obtain ⟨x, hx, hdir, hcontent⟩ := hw.object
    have hdst : content ({ s with store } : SyncWorld) (c.finalDst e) = some .dir :=
      content_dir.mpr hfinal
    rw [holds_of_some (by rw [hdst]; rfl), hdst, holds_of_some (by rw [hcontent]; rfl), hcontent]
      at hholds
    exact hdir (contentOf_dir.mp (Option.some.inj hholds).symm)

theorem pathExists_of_recovers (hfinal : s.fs.node (c.finalDst e) = none) (h : c.Recovers L w s) :
    s.fs.pathExists (c.stagedFile e) = true := by
  obtain ⟨after, n, hworks, -⟩ := h
  by_contra hstaged
  obtain ⟨err, herr⟩ := resumeRow_neither (Bool.not_eq_true _ ▸ hstaged)
    (pathExists_of_none hw.plain hfinal)
  rw [hw.opened.resume, herr] at hworks
  cases hworks

theorem pathExists_of_not_link (hlink : ¬ ∃ t, content w (c.stagedFile e) = some (.link t)) :
    s.fs.pathExists (c.stagedFile e) = true := by
  obtain ⟨x, hx, -, hcontent⟩ := hw.object
  refine pathExists_of_node hx fun t ht => hlink ⟨t, ?_⟩
  rw [hcontent, ht]
  rfl

end Waiting

/-! ## The run -/

theorem Standing.recovers (hs : Standing c L w done todo s) (hset : c.Settled done s.store)
    (hL : c.Staged L w) (hlinks : c.NoLinkedDirs L w) (hsplit : L = done ++ todo) :
    c.Recovers L w s :=
  ⟨s, 0, hset.resume, hs.recovered hset hL hlinks hsplit⟩

theorem Midway.lstat_dir (hm : Midway c L w done e todo s) :
    s.fs.lstat (c.finalDst e) = .ok .dir ↔ s.fs.node (c.finalDst e) = some .dir := by
  cases hx : s.fs.node (c.finalDst e) with
  | none =>
    obtain ⟨err, herr⟩ := lstat_of_none hm.plain hx
    rw [herr]
    exact ⟨nofun, nofun⟩
  | some x =>
    rw [lstat_of_node hx]
    exact ⟨fun h => by cases h; rfl, fun h => by cases h; rfl⟩

structure Turn (c : CommitSetting) (L : List StagedFile) (w : SyncWorld) (done : List StagedFile)
    (e : StagedFile) (todo : List StagedFile) (s : SyncWorld) : Prop where
  around : Around c L w done e todo
  standing : Standing c L w done (e :: todo) s
  settled : c.Settled done s.store

namespace Turn

variable (ht : Turn c L w done e todo s)
include ht

theorem makeParents (h : (c.makeParents e).works s = (s1, .ok ())) :
    Turn c L w done e todo s1 ∧ s1.fs.node (c.finalDst e).dropLast = some .dir := by
  obtain ⟨hs1, hstore, hparent⟩ := ht.standing.makeParents ht.around h
  exact ⟨⟨ht.around, hs1, hstore ▸ ht.settled⟩, hparent⟩

theorem waiting (h1 : (c.makeParents e).works s = (s1, .ok ()))
    (h2 : (storeTry (writeJournal (c.journalEntry e))).works s1 = (s2, .ok ())) :
    Waiting c L w done e todo s2 := by
  obtain ⟨ht1, hparent⟩ := ht.makeParents h1
  obtain ⟨store, hstore, hw⟩ := ht1.standing.opens ht1.around ht1.settled hparent
  rw [h2] at hstore
  cases hstore
  exact hw

theorem isLink_iff : c.IsLink e s ↔ ∃ t, content w (c.stagedFile e) = some (.link t) :=
  CommitSetting.isLink_iff ht.around (ht.standing.todo_staged e mem_cons_self)

theorem recovers : c.Recovers L w s :=
  ht.standing.recovers ht.settled ht.around.staged ht.around.links ht.around.split

theorem recovers_waiting (hclean : c.StepClean e s) (h1 : (c.makeParents e).works s = (s1, .ok ()))
    (h2 : (storeTry (writeJournal (c.journalEntry e))).works s1 = (s2, .ok ()))
    (h : (c.removeOld e).Leaves s2 s') : c.Recovers L w s' := by
  obtain ⟨hdir, hlink⟩ := hclean.before_rename s1 s2 s' h1 h2 h
  have hw' : Waiting c L w done e todo s' := by
    obtain ⟨fs, -, hleaves, hw, -⟩ := (ht.waiting h1 h2).removeOld
    rcases (hleaves s').mp h with rfl | rfl
    · exact ht.waiting h1 h2
    · exact hw
  refine hw'.recovers (fun hnode => hdir (hw'.lstat_dir.mpr hnode)) ?_
  by_cases hl : c.IsLink e s
  · exact hlink hl
  · exact hw'.pathExists_of_not_link fun h => hl (ht.isLink_iff.mpr h)

theorem recovers_of_clean (hclean : c.StepClean e s) (h : (c.commitStaged e).Leaves s s') :
    c.Recovers L w s' := by
  rcases leaves_bind.mp h with hcut | ⟨err, herr⟩ | ⟨s1, ⟨⟩, h1, h⟩
  · rw [CommitSetting.makeParents, cut_fsTry] at hcut
    exact hcut ▸ ht.recovers
  · rcases makeParents_cases (ht.standing.plain e mem_cons_self) with
      ⟨err', herr'⟩ | ⟨-, fs, hfs, -⟩
    · rw [herr] at herr'
      cases herr'
      exact ht.recovers
    · rw [herr] at hfs
      cases hfs
  obtain ⟨ht1, hparent⟩ := ht.makeParents h1
  obtain ⟨store, h2, hw⟩ := ht1.standing.opens ht1.around ht1.settled hparent
  rcases leaves_bind_of_ok h2 h with hcut | h
  · rw [cut_storeTry] at hcut
    exact hcut ▸ ht1.recovers
  obtain ⟨fs, h3, hleaves, hw3, -⟩ := hw.removeOld
  rcases leaves_bind_of_ok h3 h with hcut | h
  · exact ht.recovers_waiting hclean h1 h2 (.inl hcut)
  have hrec3 := ht.recovers_waiting hclean h1 h2 ((hleaves _).mpr (.inr rfl))
  have hfree : fs.node (c.finalDst e) ≠ some .dir := fun hdir => hw3.not_recovers_dir hdir hrec3
  obtain ⟨fs4, h4, hm⟩ := hw3.rename hfree
  rcases leaves_bind_of_ok h4 h with hcut | h
  · rw [cut_fsTry] at hcut
    exact hcut ▸ hrec3
  have hrec4 : ∀ s', (c.settle e).Leaves ⟨fs4, store⟩ s' → c.Recovers L w s' := by
    intro s' hs'
    refine (hm.settle hs').recovers_iff.mpr ?_
    by_cases hl : c.IsLink e s
    · exact hclean.after_rename _ _ _ _ s' h1 h2 h3 h4 hs' hl
    · exact (hm.settle hs').pathExists_of_not_link fun h => hl (ht.isLink_iff.mpr h)
  rcases leaves_bind.mp h with hcut | ⟨err, herr⟩ | ⟨s5, ⟨⟩, h5, h⟩
  · exact hrec4 s' (.inl hcut)
  · exact hrec4 s' (.inr (by rw [herr]))
  have hleft : (c.settle e).Leaves ⟨fs4, store⟩ s5 := .inr (by rw [h5])
  obtain ⟨store', h6, hs6, hset6⟩ := (hm.settle hleft).marks
  rcases h with hcut | hend
  · rw [markCommitted, cut_storeTry] at hcut
    exact hcut ▸ hrec4 s5 hleft
  · rw [h6] at hend
    subst hend
    refine hs6.recovers hset6 ht.around.staged ht.around.links ?_
    rw [ht.around.split, append_assoc]
    rfl

theorem clean_of_recovers (h : ∀ s', (c.commitStaged e).Leaves s s' → c.Recovers L w s') :
    c.StepClean e s := by
  have hbefore : ∀ s1 s2 s', (c.makeParents e).works s = (s1, .ok ()) →
      (storeTry (writeJournal (c.journalEntry e))).works s1 = (s2, .ok ()) →
      (c.removeOld e).Leaves s2 s' → c.Recovers L w s' := fun s1 s2 s' h1 h2 h' =>
    h s' (leaves_bind_right h1 (leaves_bind_right h2 (leaves_bind_left h')))
  constructor
  · intro s1 s2 s' h1 h2 h'
    have hw := ht.waiting h1 h2
    obtain ⟨fs, -, hleaves, hw3, hfinal⟩ := hw.removeOld
    have hrec3 : c.Recovers L w { s2 with fs } := hbefore s1 s2 _ h1 h2 ((hleaves _).mpr (.inr rfl))
    have hdir3 : fs.node (c.finalDst e) ≠ some .dir := fun hdir => hw3.not_recovers_dir hdir hrec3
    rcases hfinal with ⟨hdir, rfl⟩ | ⟨hdir, hnone, hfs⟩
    · exact absurd hdir hdir3
    -- the removal shows that the link leads to something, before it and after it
    have hthere : fs.pathExists (c.stagedFile e) = true := hw3.pathExists_of_recovers hnone hrec3
    rcases (hleaves s').mp h' with rfl | rfl
    · refine ⟨fun hstat => hdir (hw.lstat_dir.mp hstat), fun _ => ?_⟩
      rcases hfs with rfl | ⟨_, rfl⟩
      · exact hthere
      · exact pathExists_unbind hthere
    · exact ⟨fun hstat => hdir3 (hw3.lstat_dir.mp hstat), fun _ => hthere⟩
  · intro s1 s2 s3 s4 s' h1 h2 h3 h4 h' _
    have hw := ht.waiting h1 h2
    obtain ⟨fs, h3', hleaves, hw3, -⟩ := hw.removeOld
    have hrec3 : c.Recovers L w { s2 with fs } := hbefore s1 s2 _ h1 h2 ((hleaves _).mpr (.inr rfl))
    rw [h3] at h3'
    cases h3'
    obtain ⟨fs4, h4', hm⟩ := hw3.rename fun hdir => hw3.not_recovers_dir hdir hrec3
    rw [h4] at h4'
    cases h4'
    refine (hm.settle h').recovers_iff.mp (h s' ?_)
    exact leaves_bind_right h1 (leaves_bind_right h2 (leaves_bind_right h3 (leaves_bind_right h4
      (leaves_bind_left h'))))

theorem next (h : (c.commitStaged e).works s = (s', .ok ())) :
    Standing c L w (done ++ [e]) todo s' ∧ c.Settled (done ++ [e]) s'.store := by
  obtain ⟨s1, ⟨⟩, h1, h⟩ := works_bind_eq_ok.mp h
  obtain ⟨ht1, hparent⟩ := ht.makeParents h1
  obtain ⟨store, h2, hw⟩ := ht1.standing.opens ht1.around ht1.settled hparent
  rw [works_bind_ok h2] at h
  obtain ⟨fs, h3, -, hw3, -⟩ := hw.removeOld
  rw [works_bind_ok h3] at h
  obtain ⟨s4, ⟨⟩, h4, h⟩ := works_bind_eq_ok.mp h
  have hfree : fs.node (c.finalDst e) ≠ some .dir := by
    intro hdir
    obtain ⟨err, herr⟩ := hw3.rename_dir hdir
    rw [h4] at herr
    cases herr
  obtain ⟨fs4, h4', hm⟩ := hw3.rename hfree
  rw [h4] at h4'
  cases h4'
  obtain ⟨s5, ⟨⟩, h5, h⟩ := works_bind_eq_ok.mp h
  obtain ⟨store', h6, hs6, hset6⟩ := (hm.settle (.inr (by rw [h5]))).marks
  rw [h6] at h
  cases h
  exact ⟨hs6, hset6⟩

end Turn

/-- From the middle of the loop: what it can leave behind can be recovered from, exactly if the turns
that are left are clean. -/
theorem recovers_iff_cleanRun (hL : c.Staged L w) (hlinks : c.NoLinkedDirs L w)
    (hsplit : L = done ++ todo) (hs : Standing c L w done todo s) (hset : c.Settled done s.store) :
    (∀ s', (c.commitLoop todo).Leaves s s' → c.Recovers L w s') ↔ c.CleanRun todo s := by
  induction todo generalizing done s with
  | nil =>
    refine ⟨fun _ => trivial, fun _ s' h => ?_⟩
    rw [commitLoop, leaves_ret] at h
    exact h ▸ hs.recovers hset hL hlinks hsplit
  | cons e todo ih =>
    have ht : Turn c L w done e todo s := ⟨⟨hL, hlinks, hsplit⟩, hs, hset⟩
    have hnext : ∀ s', (c.commitStaged e).works s = (s', .ok ()) →
        ((∀ s'', (c.commitLoop todo).Leaves s' s'' → c.Recovers L w s'') ↔ c.CleanRun todo s') := by
      intro s' h
      obtain ⟨hs', hset'⟩ := ht.next h
      exact ih (by rw [hsplit, append_assoc]; rfl) hs' hset'
    constructor
    · intro hall
      refine ⟨ht.clean_of_recovers fun s' h => hall s' (leaves_bind_left h), fun s' h => ?_⟩
      exact (hnext s' h).mp fun s'' h'' => hall s'' (leaves_bind_right h (leaves_bind_left h''))
    · rintro ⟨hclean, hrest⟩ s' h
      rcases leaves_bind.mp h with hcut | ⟨err, herr⟩ | ⟨s1, ⟨⟩, h1, h⟩
      · exact ht.recovers_of_clean hclean (.inl hcut)
      · exact ht.recovers_of_clean hclean (.inr (by rw [herr]))
      · exact (hnext s1 h1).mpr (hrest s1 h1) s' (leaves_bind_ret.mp h)

/-- A commit of staged files, with no link on the way to a destination, can be finished from every
crash point exactly if every turn is clean. -/
theorem resumable_iff_cleanRun (hstaged : c.Staged L w) (hlinks : c.NoLinkedDirs L w) :
    c.Resumable L w ↔ c.CleanRun L w :=
  recovers_iff_cleanRun hstaged hlinks rfl (hstaged.standing hlinks) hstaged.settled

end CommitSetting

/-! ## A file and a link to it -/

def plainCommit : CommitSetting where
  dstDir := ["d"]
  stagingRoot := ["s"]
  transferId := .zero
  nowMs := 0
  strip := false
  srcMode _ := none

def stagedWorld (nodes : List (Path × Node FileData)) : SyncWorld where
  fs := populate ((["d"], .dir) :: (["s"], .dir) :: nodes)
  store :=
    { SqliteStateStore.empty with
      transfers := [⟨plainCommit.transferId, "", .client, .upload, .active, "", "", 0,
        .zero, 0, 0, 0, "", 0, 0⟩] }

def fileStaged : SyncWorld := stagedWorld [(["s", "a"], .file ⟨[1], 0o644⟩)]

def linkStaged : SyncWorld :=
  stagedWorld [(["s", "a"], .file ⟨[1], 0o644⟩), (["s", "l"], .link "a")]

theorem staged_fileStaged : plainCommit.Staged [⟨0, "a"⟩] fileStaged := by
  refine ⟨by decide, ?_, by decide, by decide, by decide,
    by decide, by decide, fun row hrow => (by cases hrow)⟩
  intro e he
  obtain rfl := mem_singleton.mp he
  exact ⟨.file ⟨[1], 0o644⟩, by decide, nofun⟩

theorem staged_linkStaged : plainCommit.Staged [⟨0, "a"⟩, ⟨1, "l"⟩] linkStaged := by
  refine ⟨by decide, ?_, by decide, by decide, by decide,
    by decide, by decide, fun row hrow => (by cases hrow)⟩
  intro e he
  rcases mem_cons.mp he with rfl | he
  · exact ⟨.file ⟨[1], 0o644⟩, by decide, nofun⟩
  · obtain rfl := mem_singleton.mp he
    exact ⟨.link "a", by decide, nofun⟩

namespace CommitSetting

theorem resumable_iff_file : plainCommit.Resumable [⟨0, "a"⟩] fileStaged ↔
    plainCommit.CleanRun [⟨0, "a"⟩] fileStaged := by
  refine resumable_iff_cleanRun staged_fileStaged fun e he => ?_
  obtain rfl := mem_singleton.mp he
  decide

def fileCommitted : SyncWorld := ((plainCommit.commitStaged ⟨0, "a"⟩).works linkStaged).1

def linkBegun : SyncWorld := ((plainCommit.makeParents ⟨1, "l"⟩).works fileCommitted).1

def linkJournaled : SyncWorld :=
  ((storeTry (writeJournal (plainCommit.journalEntry ⟨1, "l"⟩))).works linkBegun).1

/-- Once `a` has been moved, the staged link leads to nothing: a crash between its row and its rename
cannot be recovered from. -/
theorem not_resumable_link : plainCommit.Staged [⟨0, "a"⟩, ⟨1, "l"⟩] linkStaged ∧
    plainCommit.NoLinkedDirs [⟨0, "a"⟩, ⟨1, "l"⟩] linkStaged ∧
    ¬ plainCommit.Resumable [⟨0, "a"⟩, ⟨1, "l"⟩] linkStaged := by
  refine ⟨staged_linkStaged, fun e he => ?_, fun h => ?_⟩
  · rcases mem_cons.mp he with rfl | he
    · decide
    · obtain rfl := mem_singleton.mp he
      decide
  have h1 : (plainCommit.commitStaged ⟨0, "a"⟩).works linkStaged = (fileCommitted, .ok ()) :=
    works_eq_ok (by decide)
  have h2 : (plainCommit.makeParents ⟨1, "l"⟩).works fileCommitted = (linkBegun, .ok ()) :=
    works_eq_ok (by decide)
  have h3 : (storeTry (writeJournal (plainCommit.journalEntry ⟨1, "l"⟩))).works linkBegun =
      (linkJournaled, .ok ()) := works_eq_ok (by decide)
  have hturn : (plainCommit.commitStaged ⟨1, "l"⟩).Leaves fileCommitted linkJournaled :=
    leaves_bind_right h2 (leaves_bind_right h3 (leaves_refl ..))
  obtain ⟨after, n, hworks, -⟩ :=
    h linkJournaled (leaves_bind_right h1 (leaves_bind_left (leaves_bind_left hturn)))
  have hfails : (plainCommit.resumeInterruptedCommit.works linkJournaled).2.isOk = false := by
    decide
  rw [hworks] at hfails
  cases hfails

end CommitSetting

end Velcrux.Sync
