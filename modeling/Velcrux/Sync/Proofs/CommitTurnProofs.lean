import Velcrux.Sync.CommitJournal

/-!
# Proofs: the turns of the journaled commit

Between two turns of the commit loop the tree is `Standing` and the journal `Settled`; in the middle
of a turn a row is open, and the file is `Waiting` or has been `Moved`.
-/

namespace Velcrux.Sync

open Posix Posix.FileSystem Resumption Resumption.Prog List
open State (CommitJournalEntry CommitStatus SqliteStateStore StateStoreError)
open Storage (xattrSuffix)
open Storage.LocalLayout (components)

section Calls

variable {w w' : SyncWorld} {op : FileSystem FileData → Except Errno (FileSystem FileData)}
variable {fs : FileSystem FileData} {e : Errno} {path : Path}

theorem works_fsCall_ok (h : op w.fs = .ok fs) :
    (fsCall op).works w = ({ w with fs }, .ok (.ok ())) := by
  rw [fsCall, works_attempt, h]

theorem works_fsCall_error (h : op w.fs = .error e) :
    (fsCall op).works w = (w, .ok (.error e)) := by
  rw [fsCall, works_attempt, h]

theorem works_fsTry_ok (h : op w.fs = .ok fs) : (fsTry op).works w = ({ w with fs }, .ok ()) :=
  works_orFail (works_fsCall_ok h)

theorem works_fsTry_error (h : op w.fs = .error e) : (fsTry op).works w = (w, .error (.io e)) :=
  works_orFail (works_fsCall_error h)

theorem works_fsIgnore_ok (h : op w.fs = .ok fs) :
    (fsIgnore op).works w = ({ w with fs }, .ok ()) := works_bind_ok (works_fsCall_ok h)

theorem works_fsIgnore_error (h : op w.fs = .error e) : (fsIgnore op).works w = (w, .ok ()) :=
  works_bind_ok (works_fsCall_error h)

theorem works_isThere : (isThere path).works w = (w, .ok (w.fs.lstat path).isOk) := rfl

theorem works_bind_pathExists {α : Type} {k : Bool → SyncProg α} {b : Bool}
    (h : w.fs.pathExists path = b) : ((pathExists path).bind k).works w = (k b).works w := by
  subst h
  rfl

theorem works_storeTry_ok {op : SqliteStateStore → Except StateStoreError SqliteStateStore}
    {store : SqliteStateStore} (h : op w.store = .ok store) :
    (storeTry op).works w = ({ w with store }, .ok ()) := by
  refine works_orFail (r := .ok ()) ?_
  rw [works_attempt, h]

theorem cut_fsTry : (fsTry op).Cut w w' ↔ w' = w := by
  rw [fsTry, cut_orFail, fsCall, cut_attempt]

theorem cut_fsIgnore : (fsIgnore op).Cut w w' ↔ w' = w := by
  rw [fsIgnore, cut_bind_silent (fun a s s' h => by cases h), fsCall, cut_attempt]

theorem cut_isThere : (isThere path).Cut w w' ↔ w' = w := by
  rw [isThere, cut_bind_silent (fun a s s' h => by cases a <;> cases h), cut_attempt]

theorem cut_storeTry {op : SqliteStateStore → Except StateStoreError SqliteStateStore} :
    (storeTry op).Cut w w' ↔ w' = w := by
  rw [storeTry, cut_orFail, cut_attempt]

theorem leaves_fsIgnore : (fsIgnore op).Leaves w w' ↔ w' = w ∨ w' = ((fsIgnore op).works w).1 := by
  rw [Leaves, cut_fsIgnore]

end Calls

def Ordinary (path : Path) : Prop :=
  ∀ n, path.getLast? = some n → ¬ xattrSuffix.toList <:+ n.toList

theorem components_ne_nil (p : String) : components p ≠ [] := by
  intro h
  exact splitOn_ne_nil '/' p.toList (map_eq_nil_iff.mp h)

section Sidecar

variable {p q : Path} (hp : p ≠ [])
include hp

theorem sidecarPath_eq_concat : ∃ name, sidecarPath p = p.dropLast ++ [name ++ xattrSuffix] := by
  refine ⟨p.getLast hp, ?_⟩
  rw [sidecarPath, getLast?_eq_some_getLast hp]
  rfl

theorem sidecarPath_ne_nil : sidecarPath p ≠ [] := by
  obtain ⟨name, h⟩ := sidecarPath_eq_concat hp
  rw [h]
  exact append_ne_nil_of_right_ne_nil _ (cons_ne_nil _ _)

theorem dropLast_sidecarPath : (sidecarPath p).dropLast = p.dropLast := by
  obtain ⟨name, h⟩ := sidecarPath_eq_concat hp
  rw [h, dropLast_concat]

theorem Ordinary.ne_sidecarPath (hq : Ordinary q) : q ≠ sidecarPath p := by
  obtain ⟨name, h⟩ := sidecarPath_eq_concat hp
  rintro rfl
  refine hq (name ++ xattrSuffix) (h ▸ List.getLast?_concat) ?_
  rw [String.toList_append]
  exact suffix_append _ _

end Sidecar

namespace CommitSetting

variable {c : CommitSetting} {e e' : StagedFile} {L : List StagedFile} {w s s' : SyncWorld} {q : Path}

theorem finalDst_ne_nil : c.finalDst e ≠ [] :=
  append_ne_nil_of_right_ne_nil _ (components_ne_nil _)

theorem stagedFile_ne_nil : c.stagedFile e ≠ [] :=
  append_ne_nil_of_right_ne_nil _ (components_ne_nil _)

theorem dstDir_prefix : c.dstDir <+: (c.finalDst e).dropLast := by
  rw [finalDst, dropLast_append_of_ne_nil (components_ne_nil _)]
  exact prefix_append _ _

theorem above_parent (hq : q <+: (c.finalDst e).dropLast) : q <+: c.finalDst e ∧ q ≠ c.finalDst e := by
  refine ⟨hq.trans (List.dropLast_prefix _), ?_⟩
  rintro rfl
  have hle := hq.length_le
  rw [length_dropLast] at hle
  have := length_pos_of_ne_nil (finalDst_ne_nil (c := c) (e := e))
  omega

theorem Staged.ordinary_below (hL : c.Staged L w) (he : e ∈ L) {root t : Path} (ht : t ≠ [])
    (hpre : t <+: components e.relPath) : Ordinary (root ++ t) := by
  intro n hn
  rw [List.getLast?_append_of_ne_nil _ ht] at hn
  exact hL.no_sidecar e he n (hpre.subset (List.mem_of_getLast? hn))

theorem Staged.ordinary_final (hL : c.Staged L w) (he : e ∈ L) : Ordinary (c.finalDst e) :=
  hL.ordinary_below he (components_ne_nil _) prefix_rfl

theorem Staged.ordinary_staged (hL : c.Staged L w) (he : e ∈ L) : Ordinary (c.stagedFile e) :=
  hL.ordinary_below he (components_ne_nil _) prefix_rfl

theorem Staged.above_final (hL : c.Staged L w) (he : e ∈ L) (hq : q <+: c.finalDst e) :
    q <+: c.dstDir ∨ Ordinary q := by
  rcases List.prefix_or_prefix_of_prefix hq (prefix_append c.dstDir _) with hq | ⟨t, rfl⟩
  · exact .inl hq
  · rcases eq_or_ne t [] with rfl | hne
    · exact .inl (by rw [append_nil])
    · exact .inr (hL.ordinary_below he hne ((prefix_append_right_inj _).mp hq))

end CommitSetting

/-! ## What a program keeps -/

def content (w : SyncWorld) (q : Path) : Option (Node Bytes) := (w.fs.node q).map contentOf

theorem contentOf_dir {x : Node FileData} : contentOf x = .dir ↔ x = .dir := by
  cases x <;> simp [contentOf]

theorem contentOf_link {x : Node FileData} {t : String} : contentOf x = .link t ↔ x = .link t := by
  cases x <;> simp [contentOf]

variable {w : SyncWorld}

theorem content_dir {q : Path} : content w q = some .dir ↔ w.fs.node q = some .dir := by
  rw [content]
  cases w.fs.node q <;> simp [contentOf_dir]

theorem content_link {q : Path} {t : String} :
    content w q = some (.link t) ↔ w.fs.node q = some (.link t) := by
  rw [content]
  cases w.fs.node q <;> simp [contentOf_link]

theorem holds_of_plain {q : Path} (hplain : Plain w.fs q) : holds w.fs q = content w q := by
  rw [holds, content]
  cases hq : w.fs.node q with
  | some x => rw [lstat_of_node hq]; rfl
  | none =>
    obtain ⟨err, herr⟩ := lstat_of_none hplain hq
    rw [herr]
    rfl

theorem holds_of_some {q : Path} (h : (content w q).isSome) : holds w.fs q = content w q := by
  rw [content, Option.isSome_map] at h
  obtain ⟨x, hx⟩ := Option.isSome_iff_exists.mp h
  rw [holds, content, lstat_of_node hx, hx]
  rfl

structure Keeps (P : Path → Prop) (s s' : SyncWorld) : Prop where
  store : s'.store = s.store
  dirs : ∀ q, s.fs.node q = some .dir → s'.fs.node q = some .dir
  content : ∀ q, ¬ P q → content s' q = content s q

namespace Keeps

variable {P : Path → Prop} {s s1 s2 s' : SyncWorld} {p p' : Path}

theorem refl : Keeps P s s := ⟨rfl, fun _ h => h, fun _ _ => rfl⟩

theorem trans (h1 : Keeps P s s1) (h2 : Keeps P s1 s2) : Keeps P s s2 :=
  ⟨h2.store.trans h1.store, fun q hq => h2.dirs q (h1.dirs q hq),
    fun q hq => (h2.content q hq).trans (h1.content q hq)⟩

theorem of_ret (h : (.ret () : SyncProg Unit).Leaves s s') : Keeps P s s' := by
  rw [leaves_ret.mp h]
  exact refl

theorem of_isThere {path : Path} (h : (isThere path).Leaves s s') : Keeps P s s' := by
  rcases h with h | h
  · rw [cut_isThere.mp h]
    exact refl
  · rw [h]
    exact refl

theorem of_fsIgnore {op : FileSystem FileData → Except Errno (FileSystem FileData)}
    (hop : ∀ fs, op s.fs = .ok fs → Keeps P s { s with fs }) (h : (fsIgnore op).Leaves s s') :
    Keeps P s s' := by
  rcases leaves_fsIgnore.mp h with rfl | rfl
  · exact refl
  · cases hs : op s.fs with
    | error err =>
      rw [works_fsIgnore_error hs]
      exact refl
    | ok fs =>
      rw [works_fsIgnore_ok hs]
      exact hop fs hs

theorem of_unlink (hp : p ≠ []) (hdir : s.fs.node p.dropLast = some .dir) (hP : P p)
    (h : (fsIgnore fun fs => fs.unlink p).Leaves s s') : Keeps P s s' := by
  refine of_fsIgnore (fun fs hfs => ?_) h
  obtain ⟨p', x, hnode, hx, hafter⟩ := unlink_ok hfs
  obtain rfl := path_of_nodeAt hp hdir hnode
  refine ⟨rfl, fun q hq => ?_, fun q hq => ?_⟩
  · have hne : q ≠ p' := by
      rintro rfl
      rw [(nodeAt_ok hnode).2] at hq
      exact hx (Option.some.inj hq)
    rw [hafter, if_neg hne]
    exact hq
  · have hne : q ≠ p' := fun heq => hq (heq ▸ hP)
    rw [Sync.content, hafter, if_neg hne]
    rfl

theorem of_rename (hp : p ≠ []) (hdir : s.fs.node p.dropLast = some .dir) (hP : P p)
    (hp' : p' ≠ []) (hdir' : s.fs.node p'.dropLast = some .dir) (hP' : P p')
    (h : (fsIgnore fun fs => fs.rename p p').Leaves s s') : Keeps P s s' := by
  refine of_fsIgnore (fun fs hfs => ?_) h
  rcases rename_ok hfs with rfl | ⟨r, x, place, hnode, hx, hplace, hfree, hafter⟩
  · exact refl
  obtain rfl := path_of_nodeAt hp hdir hnode
  obtain rfl := path_of_resolve hp' hdir' hplace
  refine ⟨rfl, fun q hq => ?_, fun q hq => ?_⟩
  · have hne : q ≠ r := by
      rintro rfl
      rw [(nodeAt_ok hnode).2] at hq
      exact hx (Option.some.inj hq)
    have hne' : q ≠ place.path := by
      rintro rfl
      exact hfree hq
    rw [hafter, if_neg hne', if_neg hne]
    exact hq
  · have hne : q ≠ r := fun heq => hq (heq ▸ hP)
    have hne' : q ≠ place.path := fun heq => hq (heq ▸ hP')
    rw [Sync.content, hafter, if_neg hne', if_neg hne]
    rfl

theorem of_modifyMode {path : Path} {mode : UInt32}
    (h : (fsIgnore fun fs => fs.modifyFile path fun d => { d with mode }).Leaves s s') :
    Keeps P s s' := by
  refine of_fsIgnore (fun fs hfs => ?_) h
  rcases modifyFile_ok hfs with rfl | ⟨r, d, hnode, hafter⟩
  · exact refl
  refine ⟨rfl, fun q hq => ?_, fun q _ => ?_⟩
  · have hne : q ≠ r := by
      rintro rfl
      rw [hnode] at hq
      cases hq
    rw [hafter, if_neg hne]
    exact hq
  · rw [Sync.content, Sync.content, hafter]
    split_ifs with heq
    · rw [heq, hnode]
      rfl
    · rfl

end Keeps

namespace CommitSetting

variable {c : CommitSetting} {e : StagedFile} {s s' : SyncWorld}

def IsSidecar (c : CommitSetting) (e : StagedFile) (q : Path) : Prop :=
  q = sidecarPath (c.stagedFile e) ∨ q = sidecarPath (c.finalDst e)

theorem not_isSidecar {q : Path} (hq : Ordinary q) : ¬ c.IsSidecar e q := by
  rintro (h | h)
  · exact hq.ne_sidecarPath stagedFile_ne_nil h
  · exact hq.ne_sidecarPath finalDst_ne_nil h

theorem keeps_moveSidecar (hstaged : s.fs.node (c.stagedFile e).dropLast = some .dir)
    (hfinal : s.fs.node (c.finalDst e).dropLast = some .dir) (h : (c.moveSidecar e).Leaves s s') :
    Keeps (c.IsSidecar e) s s' := by
  have hs := sidecarPath_ne_nil (stagedFile_ne_nil (c := c) (e := e))
  have hf := sidecarPath_ne_nil (finalDst_ne_nil (c := c) (e := e))
  rw [← dropLast_sidecarPath stagedFile_ne_nil] at hstaged
  rw [← dropLast_sidecarPath finalDst_ne_nil] at hfinal
  unfold moveSidecar at h
  split_ifs at h with hstrip
  · refine leaves_bind_rel (fun _ _ _ => Keeps.trans) (fun s1 h1 => ?_) (fun s1 _ h1 s2 h2 => ?_) h
    · exact Keeps.of_unlink hf hfinal (.inr rfl) h1
    · have hkeep : Keeps (c.IsSidecar e) s s1 :=
        Keeps.of_unlink hf hfinal (.inr rfl) (.inr (by rw [h1]))
      exact Keeps.of_unlink hs (hkeep.dirs _ hstaged) (.inl rfl) h2
  · refine leaves_bind_rel (fun _ _ _ => Keeps.trans) (fun s1 h1 => Keeps.of_isThere h1)
      (fun s1 there h1 s2 h2 => ?_) h
    rw [works_isThere] at h1
    cases h1
    split_ifs at h2
    · refine leaves_bind_rel (fun _ _ _ => Keeps.trans) (fun s1 h1 => Keeps.of_isThere h1)
        (fun s1 old h1 s2 h2 => ?_) h2
      rw [works_isThere] at h1
      cases h1
      -- the old sidecar goes first, if there is one
      have hold : ∀ s1, (if (s.fs.lstat (sidecarPath (c.finalDst e))).isOk = true
          then fsIgnore fun fs => fs.unlink (sidecarPath (c.finalDst e)) else .ret ()).Leaves s s1 →
          Keeps (c.IsSidecar e) s s1 := by
        intro s1 h1
        split_ifs at h1
        · exact Keeps.of_unlink hf hfinal (.inr rfl) h1
        · exact Keeps.of_ret h1
      refine leaves_bind_rel (fun _ _ _ => Keeps.trans) hold (fun s1 _ h1 s2 h2 => ?_) h2
      have hkeep : Keeps (c.IsSidecar e) s s1 := hold s1 (.inr (by rw [h1]))
      exact Keeps.of_rename hs (hkeep.dirs _ hstaged) (.inl rfl) hf (hkeep.dirs _ hfinal) (.inr rfl) h2
    · exact Keeps.of_ret h2

theorem keeps_applyMode {P : Path → Prop} (h : (c.applyMode e).Leaves s s') : Keeps P s s' := by
  unfold applyMode at h
  split at h
  · exact Keeps.of_modifyMode h
  · exact Keeps.of_ret h

theorem keeps_settle (hstaged : s.fs.node (c.stagedFile e).dropLast = some .dir)
    (hfinal : s.fs.node (c.finalDst e).dropLast = some .dir) (h : (c.settle e).Leaves s s') :
    Keeps (c.IsSidecar e) s s' :=
  leaves_bind_rel (fun _ _ _ => Keeps.trans) (fun _ h1 => keeps_moveSidecar hstaged hfinal h1)
    (fun _ _ _ _ h2 => keeps_applyMode h2) h

variable {e' : StagedFile} {L done todo : List StagedFile} {w : SyncWorld} {q : Path}

theorem stagingRoot_prefix_sidecar : c.stagingRoot <+: sidecarPath (c.stagedFile e) := by
  refine List.IsPrefix.trans ?_ (List.dropLast_prefix (sidecarPath (c.stagedFile e)))
  rw [dropLast_sidecarPath stagedFile_ne_nil, stagedFile,
    dropLast_append_of_ne_nil (components_ne_nil _)]
  exact prefix_append _ _

theorem Staged.not_prefix (hL : c.Staged L w) (he : e ∈ L) (he' : e' ∈ L) (hne : e ≠ e') :
    ¬ components e.relPath <+: components e'.relPath := by
  intro hpre
  have hpaths : components e.relPath ≠ components e'.relPath :=
    fun heq => hne (inj_on_of_nodup_map hL.paths he he' heq)
  obtain ⟨x, hx, hdir⟩ := hL.object e he
  obtain ⟨y, hy, -⟩ := hL.object e' he'
  have hnone : w.fs.node (c.stagedFile e') = none := by
    refine node_below (p := c.stagedFile e) ?_ ?_ ?_
    · rw [hx]
      exact fun h => hdir (Option.some.inj h)
    · exact (prefix_append_right_inj _).mpr hpre
    · exact fun heq => hpaths (append_cancel_left heq)
  rw [hy] at hnone
  cases hnone

theorem Staged.final_not_prefix (hL : c.Staged L w) (he : e ∈ L) (he' : e' ∈ L) (hne : e ≠ e') :
    ¬ c.finalDst e <+: c.finalDst e' :=
  fun h => hL.not_prefix he he' hne ((prefix_append_right_inj _).mp h)

theorem Staged.staged_not_prefix (hL : c.Staged L w) (he' : e' ∈ L) :
    ¬ c.stagedFile e <+: c.finalDst e' :=
  fun h => (hL.apart e' he').1 ((prefix_append _ _).trans h)

/-! ## The tree during the loop -/

def Touched (c : CommitSetting) (e : StagedFile) (q : Path) : Prop :=
  q = c.finalDst e ∨ q = c.stagedFile e ∨ c.IsSidecar e q

theorem Staged.not_touched (hL : c.Staged L w) (he' : e' ∈ L) (hq : q <+: c.finalDst e')
    (hne : q ≠ c.finalDst e) (hlong : ¬ q <+: c.dstDir) : ¬ c.Touched e q := by
  have hord : Ordinary q := (hL.above_final he' hq).resolve_left hlong
  rintro (rfl | rfl | h)
  · exact hne rfl
  · exact hL.staged_not_prefix he' hq
  · exact not_isSidecar hord h

theorem Staged.plain_of_touched (hL : c.Staged L w) (he' : e' ∈ L)
    (hne : ∀ q, q <+: c.finalDst e' → q ≠ c.finalDst e' → q ≠ c.finalDst e)
    (hdst : s'.fs.node c.dstDir = some .dir)
    (hsame : ∀ q, ¬ c.Touched e q → content s' q = content s q)
    (hplain : Plain s.fs (c.finalDst e')) : Plain s'.fs (c.finalDst e') := by
  intro q hq hq' t ht
  by_cases hshort : q <+: c.dstDir
  · rw [dir_of_prefix_dir hdst hshort] at ht
    cases ht
  · rw [← content_link, hsame q (hL.not_touched he' hq (hne q hq hq') hshort), content_link] at ht
    exact hplain q hq hq' t ht

theorem Staged.not_touched_dstDir (hL : c.Staged L w) (he : e ∈ L) : ¬ c.Touched e c.dstDir := by
  have hlt : c.dstDir.length < (c.finalDst e).length := by
    rw [finalDst, length_append]
    have := length_pos_of_ne_nil (components_ne_nil e.relPath)
    omega
  have hroot : ¬ c.stagingRoot <+: c.dstDir :=
    fun h => (hL.apart e he).1 (h.trans (prefix_append _ _))
  rintro (h | h | h | h)
  · rw [← h] at hlt
    omega
  · exact hroot (h ▸ prefix_append _ _)
  · exact hroot (h ▸ stagingRoot_prefix_sidecar)
  · have hpre : c.dstDir <+: (sidecarPath (c.finalDst e)).dropLast := by
      rw [dropLast_sidecarPath finalDst_ne_nil]
      exact dstDir_prefix
    have hle := hpre.length_le
    rw [← h, length_dropLast] at hle
    have hnil : c.dstDir ≠ [] := h ▸ sidecarPath_ne_nil finalDst_ne_nil
    have := length_pos_of_ne_nil hnil
    omega

theorem Staged.final_not_touched (hL : c.Staged L w) (he : e ∈ L) (he' : e' ∈ L) (hne : e ≠ e') :
    ¬ c.Touched e (c.finalDst e') := by
  have hfinal : c.finalDst e' ≠ c.finalDst e :=
    fun h => hL.final_not_prefix he he' hne (h ▸ prefix_rfl)
  refine hL.not_touched he' prefix_rfl hfinal fun h => ?_
  have hle := h.length_le
  rw [finalDst, length_append] at hle
  have := length_pos_of_ne_nil (components_ne_nil e'.relPath)
  omega

theorem Staged.staged_not_touched (hL : c.Staged L w) (he : e ∈ L) (he' : e' ∈ L) (hne : e ≠ e') :
    ¬ c.Touched e (c.stagedFile e') := by
  rintro (h | h | h)
  · exact (hL.apart e he).1 (h ▸ prefix_append _ _)
  · exact hL.not_prefix he' he hne.symm (by rw [append_cancel_left h])
  · exact not_isSidecar (hL.ordinary_staged he') h

structure Standing (c : CommitSetting) (L : List StagedFile) (w : SyncWorld)
    (done todo : List StagedFile) (s : SyncWorld) : Prop where
  dst_dir : s.fs.node c.dstDir = some .dir
  done_final : ∀ e ∈ done, content s (c.finalDst e) = content w (c.stagedFile e)
  todo_staged : ∀ e ∈ todo, content s (c.stagedFile e) = content w (c.stagedFile e)
  todo_final : ∀ e ∈ todo, content s (c.finalDst e) = content w (c.finalDst e)
  plain : ∀ e ∈ todo, Plain s.fs (c.finalDst e)
  others : ∀ q x, w.fs.node q = some x → x ≠ .dir → ¬ c.stagingRoot <+: q →
    (∀ e ∈ L, q ≠ c.finalDst e ∧ q ≠ sidecarPath (c.finalDst e)) → content s q = some (contentOf x)

namespace Standing

theorem of_touched (hs : Standing c L w done todo s) (hL : c.Staged L w) (he : e ∈ L)
    (hdone : ∀ e' ∈ done, e' ∈ L ∧ e ≠ e') (htodo : ∀ e' ∈ todo, e' ∈ L ∧ e ≠ e')
    (hsame : ∀ q, ¬ c.Touched e q → content s' q = content s q) : Standing c L w done todo s' := by
  have hdst : s'.fs.node c.dstDir = some .dir := by
    rw [← content_dir, hsame _ (hL.not_touched_dstDir he), content_dir]
    exact hs.dst_dir
  refine ⟨hdst, fun e' he' => ?_, fun e' he' => ?_, fun e' he' => ?_, fun e' he' => ?_,
    fun q x hx hdir hroot hplaces => ?_⟩
  · obtain ⟨hin, hne⟩ := hdone e' he'
    rw [hsame _ (hL.final_not_touched he hin hne)]
    exact hs.done_final e' he'
  · obtain ⟨hin, hne⟩ := htodo e' he'
    rw [hsame _ (hL.staged_not_touched he hin hne)]
    exact hs.todo_staged e' he'
  · obtain ⟨hin, hne⟩ := htodo e' he'
    rw [hsame _ (hL.final_not_touched he hin hne)]
    exact hs.todo_final e' he'
  · obtain ⟨hin, hne⟩ := htodo e' he'
    refine hL.plain_of_touched hin (fun q hq _ h => ?_) hdst hsame (hs.plain e' he')
    exact hL.final_not_prefix he hin hne (h ▸ hq)
  · have hfree : ¬ c.Touched e q := by
      rintro (h | h | h | h)
      · exact (hplaces e he).1 h
      · exact hroot (h ▸ prefix_append _ _)
      · exact hroot (h ▸ stagingRoot_prefix_sidecar)
      · exact (hplaces e he).2 h
    rw [hsame q hfree]
    exact hs.others q x hx hdir hroot hplaces

theorem of_dirs (hs : Standing c L w done todo s) (hL : c.Staged L w) (he : e ∈ L)
    (hdone : ∀ e' ∈ done, e' ∈ L) (htodo : ∀ e' ∈ todo, e' ∈ L)
    (hfree : ∀ q, q <+: (c.finalDst e).dropLast → s.fs.node q = none ∨ s.fs.node q = some .dir)
    (hafter : ∀ q, s'.fs.node q = if q <+: (c.finalDst e).dropLast then some .dir else s.fs.node q) :
    Standing c L w done todo s' := by
  have hsame : ∀ q, ¬ q <+: (c.finalDst e).dropLast → content s' q = content s q := by
    intro q hq
    rw [content, hafter, if_neg hq]
    rfl
  have hfinal : ∀ e' ∈ L, ¬ c.finalDst e' <+: (c.finalDst e).dropLast := by
    intro e' he' hpre
    obtain ⟨hq, hne⟩ := above_parent hpre
    by_cases heq : e' = e
    · exact hne (heq ▸ rfl)
    · exact hL.final_not_prefix he' he heq hq
  have hstaged : ∀ e', ¬ c.stagedFile e' <+: (c.finalDst e).dropLast :=
    fun e' hpre => hL.staged_not_prefix he (above_parent hpre).1
  refine ⟨?_, fun e' he' => ?_, fun e' he' => ?_, fun e' he' => ?_, fun e' he' q hq hne t ht => ?_,
    fun q x hx hdir hroot hplaces => ?_⟩
  · rw [hafter, if_pos dstDir_prefix]
  · rw [hsame _ (hfinal e' (hdone e' he'))]
    exact hs.done_final e' he'
  · rw [hsame _ (hstaged e')]
    exact hs.todo_staged e' he'
  · rw [hsame _ (hfinal e' (htodo e' he'))]
    exact hs.todo_final e' he'
  · rw [hafter] at ht
    split_ifs at ht
    · cases ht
    · exact hs.plain e' he' q hq hne t ht
  · have hold := hs.others q x hx hdir hroot hplaces
    rw [hsame q fun hpre => ?_]
    · exact hold
    · rw [content] at hold
      rcases hfree q hpre with hnone | hisdir
      · rw [hnone] at hold
        cases hold
      · rw [hisdir] at hold
        exact hdir (contentOf_dir.mp (Option.some.inj hold).symm)

theorem finish (hs : Standing c L w done todo s)
    (he : content s (c.finalDst e) = content w (c.stagedFile e)) :
    Standing c L w (done ++ [e]) todo s := by
  refine ⟨hs.dst_dir, fun e' he' => ?_, hs.todo_staged, hs.todo_final, hs.plain, hs.others⟩
  rcases mem_append.mp he' with he' | he'
  · exact hs.done_final e' he'
  · obtain rfl := mem_singleton.mp he'
    exact he

theorem begin (hs : Standing c L w done (e :: todo) s) : Standing c L w done todo s :=
  ⟨hs.dst_dir, hs.done_final, fun e' he' => hs.todo_staged e' (.tail _ he'),
    fun e' he' => hs.todo_final e' (.tail _ he'), fun e' he' => hs.plain e' (.tail _ he'), hs.others⟩

end Standing

theorem Staged.standing (hL : c.Staged L w) (hlinks : c.NoLinkedDirs L w) :
    Standing c L w [] L w := by
  refine ⟨hL.dst_dir, fun e he => (by cases he), fun _ _ => rfl, fun _ _ => rfl, hlinks, ?_⟩
  intro q x hx _ _ _
  rw [content, hx]
  rfl

/-! ## The journal during the loop -/

variable {store : SqliteStateStore}

structure Settled (c : CommitSetting) (done : List StagedFile) (store : SqliteStateStore) : Prop where
  transfer : store.hasTransfer c.transferId = true
  only : ∀ row ∈ store.commitJournal, row.transferId = c.transferId →
    row.status = .committed ∧ ∃ e ∈ done, row.fileId = e.fileId
  each : ∀ e ∈ done, ∃ row ∈ store.commitJournal,
    row.transferId = c.transferId ∧ row.fileId = e.fileId

def Opened (c : CommitSetting) (done : List StagedFile) (e : StagedFile)
    (store : SqliteStateStore) : Prop :=
  ∃ old, c.Settled done old ∧
    store = { old with commitJournal := old.commitJournal ++ [c.journalEntry e] }

theorem Staged.settled (hL : c.Staged L w) : c.Settled [] w.store :=
  ⟨hL.transfer, fun row hrow htid => absurd htid (hL.no_row row hrow), fun e he => (by cases he)⟩

theorem Settled.opens (hset : c.Settled done store)
    (hnew : ∀ e' ∈ done, e.fileId ≠ e'.fileId) : ∃ store',
    writeJournal (c.journalEntry e) store = .ok store' ∧ c.Opened done e store' := by
  have hrow : (store.commitJournal.any fun j =>
      j.transferId = (c.journalEntry e).transferId ∧ j.fileId = (c.journalEntry e).fileId) = false := by
    rw [any_eq_false]
    intro row hrow heq
    obtain ⟨htid, hid⟩ := of_decide_eq_true heq
    obtain ⟨-, e', he', hid'⟩ := hset.only row hrow htid
    exact hnew e' he' (hid.symm.trans hid')
  have htransfer : store.hasTransfer (c.journalEntry e).transferId = true := hset.transfer
  refine ⟨_, if_pos htransfer, store, hset, ?_⟩
  rw [SqliteStateStore.writeJournal, if_pos htransfer, hrow]
  rfl

theorem Opened.marks (hopen : c.Opened done e store) : ∃ store',
    markJournalCommitted c.transferId e.fileId c.nowMs store = .ok store' ∧
      c.Settled (done ++ [e]) store' := by
  obtain ⟨old, hset, rfl⟩ := hopen
  have hin : (c.journalEntry e) ∈ old.commitJournal ++ [c.journalEntry e] :=
    mem_append_right _ (mem_singleton_self _)
  refine ⟨_, if_pos ?_, hset.transfer, fun row hrow htid => ?_, fun e' he' => ?_⟩
  · exact any_eq_true.mpr ⟨_, hin, decide_eq_true ⟨rfl, rfl⟩⟩
  · obtain ⟨row', hrow', rfl⟩ := mem_map.mp hrow
    split_ifs at htid ⊢ with hmine
    · exact ⟨rfl, e, mem_append_right _ (mem_singleton_self _), hmine.2⟩
    · rcases mem_append.mp hrow' with hrow' | hrow'
      · obtain ⟨hstatus, e', he', hid⟩ := hset.only row' hrow' htid
        exact ⟨hstatus, e', mem_append_left _ he', hid⟩
      · obtain rfl := mem_singleton.mp hrow'
        exact absurd ⟨rfl, rfl⟩ hmine
  · -- a mark keeps the keys of a row
    have hkeys : ∀ row ∈ old.commitJournal ++ [c.journalEntry e],
        row.transferId = c.transferId → row.fileId = e'.fileId →
        ∃ row ∈ ((⟨old.transfers, old.chunkBitmap, old.commitJournal ++ [c.journalEntry e]⟩ :
            SqliteStateStore).markJournalCommitted c.transferId e.fileId c.nowMs).commitJournal,
          row.transferId = c.transferId ∧ row.fileId = e'.fileId := by
      intro row hrow htid hid
      refine ⟨_, mem_map_of_mem hrow, ?_⟩
      split_ifs <;> exact ⟨htid, hid⟩
    rcases mem_append.mp he' with he' | he'
    · obtain ⟨row, hrow, htid, hid⟩ := hset.each e' he'
      exact hkeys row (mem_append_left _ hrow) htid hid
    · obtain rfl := mem_singleton.mp he'
      exact hkeys _ hin rfl rfl

/-! ## One turn -/

structure Around (c : CommitSetting) (L : List StagedFile) (w : SyncWorld) (done : List StagedFile)
    (e : StagedFile) (todo : List StagedFile) : Prop where
  staged : c.Staged L w
  links : c.NoLinkedDirs L w
  split : L = done ++ e :: todo

namespace Around

variable (ha : Around c L w done e todo)
include ha

theorem mem : e ∈ L := by
  rw [ha.split]
  exact mem_append_right _ mem_cons_self

theorem nodup : (done ++ e :: todo).Nodup := by
  rw [← ha.split]
  exact List.Nodup.of_map _ ha.staged.ids

theorem of_done : ∀ e' ∈ done, e' ∈ L ∧ e ≠ e' := by
  intro e' he'
  refine ⟨ha.split ▸ mem_append_left _ he', ?_⟩
  exact ((nodup_append.mp ha.nodup).2.2 e' he' e mem_cons_self).symm

theorem of_todo : ∀ e' ∈ todo, e' ∈ L ∧ e ≠ e' := by
  intro e' he'
  refine ⟨ha.split ▸ mem_append_right _ (mem_cons_of_mem _ he'), ?_⟩
  rintro rfl
  exact (nodup_cons.mp (nodup_append.mp ha.nodup).2.1).1 he'

theorem fileId_ne : ∀ e' ∈ done, e.fileId ≠ e'.fileId := by
  intro e' he' heq
  obtain ⟨hin, hne⟩ := ha.of_done e' he'
  exact hne (inj_on_of_nodup_map ha.staged.ids ha.mem hin heq)

theorem final_ne_staged : c.finalDst e ≠ c.stagedFile e :=
  fun h => (ha.staged.apart e ha.mem).1 (h ▸ prefix_append _ _)

end Around

structure Midway (c : CommitSetting) (L : List StagedFile) (w : SyncWorld) (done : List StagedFile)
    (e : StagedFile) (todo : List StagedFile) (s : SyncWorld) : Prop where
  around : Around c L w done e todo
  standing : Standing c L w done todo s
  plain : Plain s.fs (c.finalDst e)
  parent : s.fs.node (c.finalDst e).dropLast = some .dir
  opened : c.Opened done e s.store

structure Waiting (c : CommitSetting) (L : List StagedFile) (w : SyncWorld) (done : List StagedFile)
    (e : StagedFile) (todo : List StagedFile) (s : SyncWorld) : Prop extends
    Midway c L w done e todo s where
  still : content s (c.stagedFile e) = content w (c.stagedFile e)

structure Moved (c : CommitSetting) (L : List StagedFile) (w : SyncWorld) (done : List StagedFile)
    (e : StagedFile) (todo : List StagedFile) (s : SyncWorld) : Prop extends
    Midway c L w done e todo s where
  home : s.fs.node (c.stagedFile e).dropLast = some .dir
  gone : s.fs.node (c.stagedFile e) = none
  arrived : content s (c.finalDst e) = content w (c.stagedFile e)

theorem isLink_iff (ha : Around c L w done e todo)
    (h : content s (c.stagedFile e) = content w (c.stagedFile e)) :
    c.IsLink e s ↔ ∃ t, content w (c.stagedFile e) = some (.link t) := by
  obtain ⟨x, hx, -⟩ := ha.staged.object e ha.mem
  have hsome : (s.fs.node (c.stagedFile e)).isSome := by
    have := congrArg Option.isSome h
    rw [content, content, hx, Option.isSome_map] at this
    exact this
  obtain ⟨y, hy⟩ := Option.isSome_iff_exists.mp hsome
  rw [← h]
  refine exists_congr fun t => ?_
  rw [lstat_of_node hy, content_link, hy]
  exact ⟨fun h => by cases h; rfl, fun h => by cases h; rfl⟩

theorem makeParents_cases (hplain : Plain s.fs (c.finalDst e)) :
    (∃ err, (c.makeParents e).works s = (s, .error err)) ∨
      (∀ q, q <+: (c.finalDst e).dropLast → s.fs.node q = none ∨ s.fs.node q = some .dir) ∧
      ∃ fs, (c.makeParents e).works s = ({ s with fs }, .ok ()) ∧
        ∀ q, fs.node q = if q <+: (c.finalDst e).dropLast then some .dir else s.fs.node q := by
  by_cases hfile : ∃ q d, q <+: (c.finalDst e).dropLast ∧ s.fs.node q = some (.file d)
  · obtain ⟨q, d, hq, hd⟩ := hfile
    have hplain' : Plain s.fs (c.finalDst e).dropLast := fun r hr _ =>
      hplain r (above_parent hr).1 (above_parent hr).2
    obtain ⟨err, herr⟩ := createDirAll_file hplain' hq hd
    exact .inl ⟨_, works_fsTry_error herr⟩
  · have hfree : ∀ q, q <+: (c.finalDst e).dropLast →
        s.fs.node q = none ∨ s.fs.node q = some .dir := by
      intro q hq
      cases hx : s.fs.node q with
      | none => exact .inl rfl
      | some x =>
        cases x with
        | dir => exact .inr rfl
        | file d => exact absurd ⟨q, d, hq, hx⟩ hfile
        | link t => exact absurd hx (hplain q (above_parent hq).1 (above_parent hq).2 t)
    obtain ⟨fs, hfs, hafter⟩ := createDirAll_ok hfree
    exact .inr ⟨hfree, fs, works_fsTry_ok hfs, hafter⟩

namespace Midway

theorem of_touched (hm : Midway c L w done e todo s)
    (hsame : ∀ q, ¬ c.Touched e q → content s' q = content s q) (hstore : s'.store = s.store) :
    Midway c L w done e todo s' := by
  have ha := hm.around
  have hstanding : Standing c L w done todo s' :=
    hm.standing.of_touched ha.staged ha.mem ha.of_done ha.of_todo hsame
  refine ⟨ha, hstanding, ?_, ?_, hstore ▸ hm.opened⟩
  · exact ha.staged.plain_of_touched ha.mem (fun _ _ h => h) hstanding.dst_dir hsame hm.plain
  · by_cases hshort : (c.finalDst e).dropLast <+: c.dstDir
    · exact dir_of_prefix_dir hstanding.dst_dir hshort
    · obtain ⟨hpre, hne⟩ := above_parent prefix_rfl
      rw [← content_dir, hsame _ (ha.staged.not_touched ha.mem hpre hne hshort), content_dir]
      exact hm.parent

end Midway

/-! ## The calls of a turn -/

theorem Standing.makeParents (hs : Standing c L w done (e :: todo) s)
    (ha : Around c L w done e todo) (h : (c.makeParents e).works s = (s', .ok ())) :
    Standing c L w done (e :: todo) s' ∧ s'.store = s.store ∧
      s'.fs.node (c.finalDst e).dropLast = some .dir := by
  have htodo : ∀ e' ∈ e :: todo, e' ∈ L := by
    intro e' he'
    rw [ha.split]
    exact mem_append_right _ he'
  rcases makeParents_cases (hs.plain e mem_cons_self) with ⟨err, herr⟩ | ⟨hfree, fs, hfs, hafter⟩
  · rw [h] at herr
    cases herr
  · rw [hfs] at h
    cases h
    refine ⟨?_, rfl, ?_⟩
    · exact hs.of_dirs ha.staged ha.mem (fun e' he' => (ha.of_done e' he').1) htodo hfree hafter
    · rw [hafter, if_pos prefix_rfl]

theorem Standing.opens (hs : Standing c L w done (e :: todo) s) (ha : Around c L w done e todo)
    (hset : c.Settled done s.store) (hparent : s.fs.node (c.finalDst e).dropLast = some .dir) :
    ∃ store, (storeTry (writeJournal (c.journalEntry e))).works s = ({ s with store }, .ok ()) ∧
      Waiting c L w done e todo { s with store } := by
  obtain ⟨store, hstore, hopen⟩ := hset.opens ha.fileId_ne
  have hbegin : Standing c L w done todo { s with store } :=
    hs.begin.of_touched ha.staged ha.mem ha.of_done ha.of_todo fun _ _ => rfl
  exact ⟨store, works_storeTry_ok hstore,
    ⟨⟨ha, hbegin, hs.plain e mem_cons_self, hparent, hopen⟩, hs.todo_staged e mem_cons_self⟩⟩

namespace Waiting

variable (hw : Waiting c L w done e todo s)
include hw

theorem object : ∃ x, s.fs.node (c.stagedFile e) = some x ∧ x ≠ .dir ∧
    content w (c.stagedFile e) = some (contentOf x) := by
  obtain ⟨x, hx, hdir⟩ := hw.around.staged.object e hw.around.mem
  have hstill := hw.still
  have hcontent : content w (c.stagedFile e) = some (contentOf x) := by
    rw [content, hx]
    rfl
  rw [hcontent, content, Option.map_eq_some_iff] at hstill
  obtain ⟨y, hy, heq⟩ := hstill
  refine ⟨y, hy, ?_, hcontent.trans (congrArg some heq.symm)⟩
  rintro rfl
  exact hdir (contentOf_dir.mp heq.symm)

theorem of_final (hsame : ∀ q, q ≠ c.finalDst e → s'.fs.node q = s.fs.node q)
    (hstore : s'.store = s.store) : Waiting c L w done e todo s' := by
  have hcontent : ∀ q, q ≠ c.finalDst e → content s' q = content s q := by
    intro q hq
    rw [content, hsame q hq]
    rfl
  refine ⟨hw.toMidway.of_touched (fun q hq => hcontent q fun h => hq (.inl h)) hstore, ?_⟩
  rw [hcontent _ hw.around.final_ne_staged.symm]
  exact hw.still

theorem removeOld : ∃ fs, (c.removeOld e).works s = ({ s with fs }, .ok ()) ∧
    (∀ s', (c.removeOld e).Leaves s s' ↔ s' = s ∨ s' = { s with fs }) ∧
    Waiting c L w done e todo { s with fs } ∧
    (s.fs.node (c.finalDst e) = some .dir ∧ fs = s.fs ∨
      s.fs.node (c.finalDst e) ≠ some .dir ∧ fs.node (c.finalDst e) = none ∧
        (fs = s.fs ∨ ∃ h, fs = s.fs.unbind (c.finalDst e) h)) := by
  have hleaves : ∀ fs, (c.removeOld e).works s = ({ s with fs }, .ok ()) →
      ∀ s', (c.removeOld e).Leaves s s' ↔ s' = s ∨ s' = { s with fs } := by
    intro fs hfs s'
    rw [Leaves, hfs, CommitSetting.removeOld, cut_bind, cut_isThere]
    constructor
    · rintro ((h | ⟨s1, there, heq, h⟩) | h)
      · exact .inl h
      · cases heq
        split_ifs at h
        · exact .inl (cut_fsIgnore.mp h)
        · cases h
      · exact .inr h
    · rintro (h | h)
      · exact .inl (.inl h)
      · exact .inr h
  have hworks : (c.removeOld e).works s = (if (s.fs.lstat (c.finalDst e)).isOk = true
      then fsIgnore fun fs => fs.unlink (c.finalDst e) else .ret ()).works s :=
    works_bind_ok works_isThere
  cases hx : s.fs.node (c.finalDst e) with
  | none =>
    obtain ⟨err, herr⟩ := lstat_of_none hw.plain hx
    have hend : (c.removeOld e).works s = ({ s with fs := s.fs }, .ok ()) := by
      rw [hworks, herr]
      rfl
    exact ⟨s.fs, hend, hleaves _ hend, hw, .inr ⟨by simp, hx, .inl rfl⟩⟩
  | some x =>
    rw [lstat_of_node hx] at hworks
    by_cases hdir : x = .dir
    · subst hdir
      have hend : (c.removeOld e).works s = ({ s with fs := s.fs }, .ok ()) := by
        rw [hworks]
        exact works_fsIgnore_error (unlink_of_dir hx)
      exact ⟨s.fs, hend, hleaves _ hend, hw, .inl ⟨rfl, rfl⟩⟩
    · have hend : (c.removeOld e).works s =
          ({ s with fs := s.fs.unbind (c.finalDst e) (dirAt_false hx hdir) }, .ok ()) := by
        rw [hworks]
        exact works_fsIgnore_ok (unlink_of_node hx hdir)
      refine ⟨_, hend, hleaves _ hend, hw.of_final (fun q hq => if_neg hq) rfl,
        .inr ⟨fun h => hdir (Option.some.inj h), if_pos rfl, .inr ⟨_, rfl⟩⟩⟩

theorem rename (hfinal : s.fs.node (c.finalDst e) ≠ some .dir) : ∃ fs,
    (fsTry fun fs => fs.rename (c.stagedFile e) (c.finalDst e)).works s = ({ s with fs }, .ok ()) ∧
      Moved c L w done e todo { s with fs } := by
  obtain ⟨x, hx, hdir, hcontent⟩ := hw.object
  have hbind : s.fs.Bindable (c.finalDst e) := by
    refine ⟨finalDst_ne_nil, dirAt_iff.mpr hw.parent, ?_⟩
    rw [← Bool.not_eq_true, dirAt_iff]
    exact hfinal
  obtain ⟨fs, hfs, hafter⟩ := rename_of_node hx hdir hw.around.final_ne_staged.symm hbind
  refine ⟨fs, works_fsTry_ok hfs, ⟨hw.toMidway.of_touched (fun q hq => ?_) rfl, ?_, ?_, ?_⟩⟩
  · rw [content, hafter, if_neg fun h => hq (.inl h), if_neg fun h => hq (.inr (.inl h))]
    rfl
  · -- the directory of the staged file is neither of the two names
    have hhome : s.fs.node (c.stagedFile e).dropLast = some .dir := by
      obtain ⟨dir, name, h⟩ := (eq_nil_or_concat' (c.stagedFile e)).resolve_left stagedFile_ne_nil
      rw [h] at hx ⊢
      rw [dropLast_concat]
      exact s.fs.parent dir name (by rw [hx]; rfl)
    have hne : (c.stagedFile e).dropLast ≠ c.stagedFile e := fun h =>
      hdir (Option.some.inj (hx.symm.trans (h ▸ hhome)))
    have hne' : (c.stagedFile e).dropLast ≠ c.finalDst e := fun h => hfinal (h ▸ hhome)
    rw [hafter, if_neg hne', if_neg hne]
    exact hhome
  · rw [hafter, if_neg hw.around.final_ne_staged.symm, if_pos rfl]
  · rw [content, hafter, if_pos rfl, hcontent]
    rfl

theorem rename_dir (hfinal : s.fs.node (c.finalDst e) = some .dir) : ∃ err,
    (fsTry fun fs => fs.rename (c.stagedFile e) (c.finalDst e)).works s = (s, .error err) := by
  obtain ⟨x, hx, hdir, -⟩ := hw.object
  obtain ⟨err, herr⟩ := rename_of_dir hx hdir hfinal
  exact ⟨_, works_fsTry_error herr⟩

end Waiting

namespace Moved

variable (hm : Moved c L w done e todo s)
include hm

theorem settle (h : (c.settle e).Leaves s s') : Moved c L w done e todo s' := by
  have hkeep := keeps_settle hm.home hm.parent h
  have ha := hm.around
  have hsame : ∀ q, ¬ c.IsSidecar e q → content s' q = content s q := hkeep.content
  refine ⟨hm.toMidway.of_touched (fun q hq => hsame q fun h => hq (.inr (.inr h))) hkeep.store,
    hkeep.dirs _ hm.home, ?_, ?_⟩
  · have hgone := hsame _ (not_isSidecar (ha.staged.ordinary_staged ha.mem))
    rw [content, content, hm.gone] at hgone
    exact Option.map_eq_none_iff.mp hgone
  · rw [hsame _ (not_isSidecar (ha.staged.ordinary_final ha.mem))]
    exact hm.arrived

theorem marks : ∃ store, (c.markCommitted e).works s = ({ s with store }, .ok ()) ∧
    Standing c L w (done ++ [e]) todo { s with store } ∧ c.Settled (done ++ [e]) store := by
  obtain ⟨store, hstore, hset⟩ := hm.opened.marks
  have ha := hm.around
  refine ⟨store, works_storeTry_ok hstore, Standing.finish ?_ hm.arrived, hset⟩
  exact hm.standing.of_touched ha.staged ha.mem ha.of_done ha.of_todo fun _ _ => rfl

theorem plain_staged : Plain s.fs (c.stagedFile e) := by
  intro q hq hne t ht
  have hpre : q <+: (c.stagedFile e).dropLast := by
    obtain ⟨dir, name, h⟩ := (eq_nil_or_concat' (c.stagedFile e)).resolve_left stagedFile_ne_nil
    rw [h] at hq hne ⊢
    rw [dropLast_concat]
    exact (prefix_concat_iff.mp hq).resolve_left hne
  rw [dir_of_prefix_dir hm.home hpre] at ht
  cases ht

end Moved

end CommitSetting

end Velcrux.Sync
