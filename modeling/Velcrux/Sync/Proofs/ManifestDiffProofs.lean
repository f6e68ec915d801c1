import Velcrux.Manifest.Proofs.ScannerProofs
import Velcrux.Manifest.Proofs.StreamProofs
import Velcrux.Sync.ManifestDiff

/-!
# Proofs: the streaming manifest diff

The loop merges the entries of the two manifests by their paths. The entries come in the order of the
walk, which is not the order of the paths as strings.
-/

namespace Velcrux.Sync

open Chunking (ChunkParams)
open Manifest List DirectoryDiffSummary DirectoryTree Hash
open MergeDiff
open Protocol (Compressor)
open Wire

variable {Z : Compressor} {H : HashFn}
variable {c : Cursor} {entries : List FileEntry} {srcTree dstTree : DirectoryTree}

def Cursor.Lists (Z : Compressor) (H : HashFn) (c : Cursor) (entries : List FileEntry) : Prop :=
  match c.current with
  | none => entries = []
  | some e => ∃ later, entries = e :: later ∧ c.reader.Yields Z H later

theorem lists_none (h : c.current = none) : c.Lists Z H entries ↔ entries = [] := by
  rw [Cursor.Lists, h]

theorem lists_some {e : FileEntry} (h : c.current = some e) :
    c.Lists Z H entries ↔ ∃ later, entries = e :: later ∧ c.reader.Yields Z H later := by
  rw [Cursor.Lists, h]

theorem lists_advance {c' : Cursor} (h : c.advance Z H = .ok c') (entries : List FileEntry) :
    c.reader.Yields Z H entries ↔ c'.Lists Z H entries := by
  unfold Cursor.advance at h
  split at h
  · cases h
  · rename_i entry reader hnext
    cases h
    cases entry with
    | none =>
      rw [lists_none rfl]
      cases entries <;> simp [ManifestReader.Yields, hnext]
    | some e =>
      rw [lists_some rfl]
      cases entries with
      | nil => simp [ManifestReader.Yields, hnext]
      | cons e' entries =>
        rw [yields_cons_iff hnext]
        constructor
        · rintro ⟨rfl, hlater⟩
          exact ⟨entries, rfl, hlater⟩
        · rintro ⟨later, heq, hlater⟩
          cases heq
          exact ⟨rfl, hlater⟩

theorem not_yields_advance {err : VelcruxError} (h : c.advance Z H = .error err)
    (entries : List FileEntry) : ¬ c.reader.Yields Z H entries := by
  unfold Cursor.advance at h
  split at h
  · rename_i e reader hnext
    exact not_yields_of_error hnext entries
  · cases h

theorem yields_iff_advance (entries : List FileEntry) :
    c.reader.Yields Z H entries ↔ ∃ c', c.advance Z H = .ok c' ∧ c'.Lists Z H entries := by
  cases h : c.advance Z H with
  | error err => simp [not_yields_advance h]
  | ok c' => simp [lists_advance h]

/-! ## The loop -/

def proceed {α : Type} (a : FileAction) (next : Except VelcruxError α) (later : α → DiffResult) :
    DiffResult :=
  match next with
  | .error e => ([a], .error e)
  | .ok x => emit a (later x)

theorem proceed_ok_iff {α : Type} {a : FileAction} {next : Except VelcruxError α}
    {later : α → DiffResult} {actions : List FileAction} {summary : DirectoryDiffSummary} :
    proceed a next later = (actions, .ok summary) ↔
      ∃ x actions', next = .ok x ∧ later x = (actions', .ok summary) ∧ actions = a :: actions' := by
  unfold proceed
  cases next with
  | error e => simp
  | ok x =>
    constructor
    · intro h
      obtain ⟨hactions, hsummary⟩ := Prod.ext_iff.mp h
      exact ⟨x, _, rfl, Prod.ext rfl hsummary, hactions.symm⟩
    · rintro ⟨x', actions', hx', hlater, rfl⟩
      cases hx'
      show emit a (later x) = _
      rw [hlater, emit]

def advanceBoth (Z : Compressor) (H : HashFn) (src dst : Cursor) :
    Except VelcruxError (Cursor × Cursor) := do
  let src ← src.advance Z H
  let dst ← dst.advance Z H
  return (src, dst)

theorem advanceBoth_ok_iff {src dst src' dst' : Cursor} :
    advanceBoth Z H src dst = .ok (src', dst') ↔
      src.advance Z H = .ok src' ∧ dst.advance Z H = .ok dst' := by
  unfold advanceBoth
  cases src.advance Z H <;> cases dst.advance Z H <;> simp [bind, Except.bind, pure, Except.pure]

variable {src dst : Cursor} {s : DirectoryDiffSummary}

theorem diffLoop_none (hsrc : src.current = none)
    (hdst : dst.current = none) : diffLoop Z H src dst s = ([], .ok s) := by
  rw [diffLoop]
  split <;> simp_all

variable {sf : FileEntry}

theorem diffLoop_src
    (hsrc : src.current = some sf) (hdst : ∀ df ∈ dst.current, sf.path.str < df.path.str) :
    diffLoop Z H src dst s = proceed (addAction sf) (src.advance Z H) fun src' =>
      diffLoop Z H src' dst (s.record (addAction sf)) := by
  rw [diffLoop]
  unfold proceed
  split
  · simp_all
  · rename_i sf' df hsrc' hdst'
    rw [hsrc] at hsrc'
    cases hsrc'
    have hlt := hdst df hdst'
    rw [if_neg hlt.ne, if_pos hlt]
    split <;> simp_all
  · split <;> simp_all
  · simp_all

variable {df : FileEntry}

theorem diffLoop_dst
    (hsrc : ∀ sf ∈ src.current, df.path.str < sf.path.str) (hdst : dst.current = some df) :
    diffLoop Z H src dst s = proceed (deleteAction df) (dst.advance Z H) fun dst' =>
      diffLoop Z H src dst' (s.record (deleteAction df)) := by
  rw [diffLoop]
  unfold proceed
  split
  · simp_all
  · rename_i sf df' hsrc' hdst'
    rw [hdst] at hdst'
    cases hdst'
    have hlt := hsrc sf hsrc'
    rw [if_neg hlt.ne', if_neg hlt.not_gt]
    split <;> simp_all
  · simp_all
  · split <;> simp_all

variable {sf df : FileEntry}

theorem diffLoop_both
    (hsrc : src.current = some sf) (hdst : dst.current = some df) (heq : sf.path.str = df.path.str) :
    diffLoop Z H src dst s = proceed (compareAction sf df) (advanceBoth Z H src dst) fun c =>
      diffLoop Z H c.1 c.2 (s.record (compareAction sf df)) := by
  rw [diffLoop]
  unfold proceed advanceBoth
  split
  · simp_all
  · rename_i sf' df' hsrc' hdst'
    rw [hsrc] at hsrc'
    rw [hdst] at hdst'
    cases hsrc'
    cases hdst'
    rw [if_pos heq]
    split
    · simp_all [bind, Except.bind]
    · split <;> simp_all [bind, Except.bind, pure, Except.pure]
  · simp_all
  · simp_all

/-! ## The loop is a merge -/

def pathOf (e : FileEntry) : String := e.path.str

def actionOf : Paired FileEntry → FileAction
  | .left sf => addAction sf
  | .right df => deleteAction df
  | .both sf df => compareAction sf df

def Reports (src dst : List FileEntry) (s : DirectoryDiffSummary) (actions : List FileAction)
    (summary : DirectoryDiffSummary) : Prop :=
  actions = (mergeBy pathOf src dst).map actionOf ∧
    summary = actions.foldl record s

section Reports

variable {src dst : List FileEntry} {s summary : DirectoryDiffSummary} {actions : List FileAction}
variable {sf df : FileEntry}

theorem reports_cons {src' dst' : List FileEntry} {o : Paired FileEntry}
    (h : mergeBy pathOf src dst = o :: mergeBy pathOf src' dst') :
    Reports src dst s actions summary ↔ ∃ actions', actions = actionOf o :: actions' ∧
      Reports src' dst' (s.record (actionOf o)) actions' summary := by
  rw [Reports, h]
  constructor
  · rintro ⟨rfl, rfl⟩
    exact ⟨_, rfl, rfl, rfl⟩
  · rintro ⟨actions', rfl, rfl, rfl⟩
    exact ⟨rfl, rfl⟩

theorem mergeBy_src (hdst : ∀ df ∈ dst.head?, sf.path.str < df.path.str) :
    mergeBy pathOf (sf :: src) dst = .left sf :: mergeBy pathOf src dst := by
  cases dst with
  | nil => rw [mergeBy_nil, mergeBy_nil, map_cons]
  | cons df dst => exact mergeBy_left (hdst df rfl)

theorem mergeBy_dst (hsrc : ∀ sf ∈ src.head?, df.path.str < sf.path.str) :
    mergeBy pathOf src (df :: dst) = .right df :: mergeBy pathOf src dst := by
  cases src with
  | nil => rw [mergeBy, mergeBy, map_cons]
  | cons sf src => exact mergeBy_right (hsrc sf rfl)

end Reports

theorem head?_of_lists (h : c.Lists Z H entries) : entries.head? = c.current := by
  cases hc : c.current with
  | none => rw [(lists_none hc).mp h, List.head?_nil]
  | some e =>
    obtain ⟨later, rfl, -⟩ := (lists_some hc).mp h
    rfl

def LoopSpec (Z : Compressor) (H : HashFn) (src dst : Cursor) : Prop :=
  ∀ s actions summary, diffLoop Z H src dst s = (actions, .ok summary) ↔
    ∃ S D, src.Lists Z H S ∧ dst.Lists Z H D ∧ Reports S D s actions summary

theorem loopSpec_src (hsrc : src.current = some sf)
    (hdst : ∀ df ∈ dst.current, sf.path.str < df.path.str)
    (ih : ∀ src', src.advance Z H = .ok src' → LoopSpec Z H src' dst) : LoopSpec Z H src dst := by
  intro s actions summary
  rw [diffLoop_src hsrc hdst, proceed_ok_iff]
  have hmerge {S D : List FileEntry} (hD : dst.Lists Z H D) :
      mergeBy pathOf (sf :: S) D = .left sf :: mergeBy pathOf S D :=
    mergeBy_src (by rwa [head?_of_lists hD])
  constructor
  · rintro ⟨src', actions', hnext, hlater, rfl⟩
    obtain ⟨S, D, hS, hD, hreports⟩ := (ih src' hnext _ _ _).mp hlater
    refine ⟨sf :: S, D, (lists_some hsrc).mpr ⟨S, rfl, (lists_advance hnext S).mpr hS⟩, hD, ?_⟩
    exact (reports_cons (hmerge hD)).mpr ⟨actions', rfl, hreports⟩
  · rintro ⟨S, D, hS, hD, hreports⟩
    obtain ⟨S, rfl, hyields⟩ := (lists_some hsrc).mp hS
    obtain ⟨src', hnext, hS'⟩ := (yields_iff_advance S).mp hyields
    obtain ⟨actions', rfl, hlater⟩ := (reports_cons (hmerge hD)).mp hreports
    exact ⟨src', actions', hnext, (ih src' hnext _ _ _).mpr ⟨S, D, hS', hD, hlater⟩, rfl⟩

theorem loopSpec_dst
    (hsrc : ∀ sf ∈ src.current, df.path.str < sf.path.str) (hdst : dst.current = some df)
    (ih : ∀ dst', dst.advance Z H = .ok dst' → LoopSpec Z H src dst') : LoopSpec Z H src dst := by
  intro s actions summary
  rw [diffLoop_dst hsrc hdst, proceed_ok_iff]
  have hmerge {S D : List FileEntry} (hS : src.Lists Z H S) :
      mergeBy pathOf S (df :: D) = .right df :: mergeBy pathOf S D :=
    mergeBy_dst (by rwa [head?_of_lists hS])
  constructor
  · rintro ⟨dst', actions', hnext, hlater, rfl⟩
    obtain ⟨S, D, hS, hD, hreports⟩ := (ih dst' hnext _ _ _).mp hlater
    refine ⟨S, df :: D, hS, (lists_some hdst).mpr ⟨D, rfl, (lists_advance hnext D).mpr hD⟩, ?_⟩
    exact (reports_cons (hmerge hS)).mpr ⟨actions', rfl, hreports⟩
  · rintro ⟨S, D, hS, hD, hreports⟩
    obtain ⟨D, rfl, hyields⟩ := (lists_some hdst).mp hD
    obtain ⟨dst', hnext, hD'⟩ := (yields_iff_advance D).mp hyields
    obtain ⟨actions', rfl, hlater⟩ := (reports_cons (hmerge hS)).mp hreports
    exact ⟨dst', actions', hnext, (ih dst' hnext _ _ _).mpr ⟨S, D, hS, hD', hlater⟩, rfl⟩

theorem loopSpec_both (hsrc : src.current = some sf)
    (hdst : dst.current = some df) (heq : sf.path.str = df.path.str)
    (ih : ∀ src' dst', src.advance Z H = .ok src' → dst.advance Z H = .ok dst' →
      LoopSpec Z H src' dst') : LoopSpec Z H src dst := by
  intro s actions summary
  rw [diffLoop_both hsrc hdst heq, proceed_ok_iff]
  have hmerge (S D : List FileEntry) :
      mergeBy pathOf (sf :: S) (df :: D) = .both sf df :: mergeBy pathOf S D := mergeBy_both heq
  constructor
  · rintro ⟨⟨src', dst'⟩, actions', hnext, hlater, rfl⟩
    obtain ⟨hs, hd⟩ := advanceBoth_ok_iff.mp hnext
    obtain ⟨S, D, hS, hD, hreports⟩ := (ih src' dst' hs hd _ _ _).mp hlater
    refine ⟨sf :: S, df :: D, (lists_some hsrc).mpr ⟨S, rfl, (lists_advance hs S).mpr hS⟩,
      (lists_some hdst).mpr ⟨D, rfl, (lists_advance hd D).mpr hD⟩, ?_⟩
    exact (reports_cons (hmerge S D)).mpr ⟨actions', rfl, hreports⟩
  · rintro ⟨S, D, hS, hD, hreports⟩
    obtain ⟨S, rfl, hyieldsS⟩ := (lists_some hsrc).mp hS
    obtain ⟨D, rfl, hyieldsD⟩ := (lists_some hdst).mp hD
    obtain ⟨src', hs, hS'⟩ := (yields_iff_advance S).mp hyieldsS
    obtain ⟨dst', hd, hD'⟩ := (yields_iff_advance D).mp hyieldsD
    obtain ⟨actions', rfl, hlater⟩ := (reports_cons (hmerge S D)).mp hreports
    exact ⟨(src', dst'), actions', advanceBoth_ok_iff.mpr ⟨hs, hd⟩,
      (ih src' dst' hs hd _ _ _).mpr ⟨S, D, hS', hD', hlater⟩, rfl⟩

/-- **The loop merges** what the two cursors go through, by induction on the entries that can still
come. -/
theorem loopSpec (src dst : Cursor) : LoopSpec Z H src dst := by
  induction hn : src.work + dst.work using Nat.strong_induction_on generalizing src dst with
  | _ n ih =>
    have hwork {c c' : Cursor} {e : FileEntry} (hc : c.current = some e)
        (hnext : c.advance Z H = .ok c') : c'.work < c.work :=
      Cursor.work_advance (by rw [hc]; rfl) hnext
    cases hsrc : src.current with
    | none =>
      cases hdst : dst.current with
      | none =>
        intro s actions summary
        rw [diffLoop_none hsrc hdst]
        constructor
        · intro h
          cases h
          refine ⟨[], [], (lists_none hsrc).mpr rfl, (lists_none hdst).mpr rfl, ?_, rfl⟩
          rw [mergeBy_nil, map_nil, map_nil]
        · rintro ⟨S, D, hS, hD, hreports⟩
          rw [(lists_none hsrc).mp hS, (lists_none hdst).mp hD] at hreports
          obtain ⟨rfl, rfl⟩ := hreports
          rw [mergeBy_nil, map_nil, map_nil, foldl_nil]
      | some df =>
        refine loopSpec_dst (by simp [hsrc]) hdst fun dst' hd => ?_
        have hlt := hwork hdst hd
        exact ih _ (by omega) src dst' rfl
    | some sf =>
      cases hdst : dst.current with
      | none =>
        refine loopSpec_src hsrc (by simp [hdst]) fun src' hs => ?_
        have hlt := hwork hsrc hs
        exact ih _ (by omega) src' dst rfl
      | some df =>
        rcases lt_trichotomy sf.path.str df.path.str with hlt | heq | hgt
        · refine loopSpec_src hsrc (by simpa [hdst] using hlt) fun src' hs => ?_
          have hless := hwork hsrc hs
          exact ih _ (by omega) src' dst rfl
        · refine loopSpec_both hsrc hdst heq fun src' dst' hs hd => ?_
          have hless := hwork hsrc hs
          have hless' := hwork hdst hd
          exact ih _ (by omega) src' dst' rfl
        · refine loopSpec_dst (by simpa [hsrc] using hgt) hdst fun dst' hd => ?_
          have hless := hwork hdst hd
          exact ih _ (by omega) src dst' rfl

theorem diffManifestReaders_ok_iff {srcReader dstReader : ManifestReader}
    {actions : List FileAction} {summary : DirectoryDiffSummary} :
    diffManifestReaders Z H srcReader dstReader = (actions, .ok summary) ↔
      ∃ S D, srcReader.Yields Z H S ∧ dstReader.Yields Z H D ∧ Reports S D .zero actions summary := by
  have hsrc (S : List FileEntry) := yields_iff_advance (Z := Z) (H := H) (c := ⟨srcReader, none⟩) S
  have hdst (D : List FileEntry) := yields_iff_advance (Z := Z) (H := H) (c := ⟨dstReader, none⟩) D
  simp only [hsrc, hdst, diffManifestReaders]
  cases Cursor.advance Z H ⟨srcReader, none⟩ with
  | error e => simp
  | ok src =>
    cases Cursor.advance Z H ⟨dstReader, none⟩ with
    | error e => simp
    | ok dst =>
      have hloop := loopSpec (Z := Z) (H := H) src dst .zero actions summary
      simpa using hloop

/-! ## The diff of two trees -/

section TreeDiff

variable {src dst : List FileEntry} {s summary : DirectoryDiffSummary} {actions : List FileAction}

theorem isSame_iff (sf df : FileEntry) : isSame sf df = true ↔ Agree sf df := by
  simp [isSame, Agree, and_assoc]

theorem relPath_actionOf (o : Paired FileEntry) : (actionOf o).relPath = o.keyBy pathOf := by
  cases o with
  | left sf => rfl
  | right df => rfl
  | both sf df =>
    show (compareAction sf df).relPath = sf.path.str
    unfold compareAction
    split_ifs <;> rfl

theorem counts_foldl (actions : List FileAction) (s : DirectoryDiffSummary) :
    (actions.foldl record s).filesUnchanged =
        s.filesUnchanged + countOf .unchanged actions ∧
      (actions.foldl record s).filesModified =
        s.filesModified + countOf .modify actions ∧
      (actions.foldl record s).filesAdded =
        s.filesAdded + countOf .add actions ∧
      (actions.foldl record s).filesDeleted =
        s.filesDeleted + countOf .delete actions := by
  induction actions generalizing s with
  | nil => simp [countOf]
  | cons a actions ih =>
    obtain ⟨hunchanged, hmodified, hadded, hdeleted⟩ := ih (s.record a)
    rw [foldl_cons, hunchanged, hmodified, hadded, hdeleted]
    simp only [countOf, countP_cons]
    unfold record
    cases a.action <;> simp <;> omega

theorem entryAt_of_mem {e : FileEntry} (hnodup : (paths entries).Nodup)
    (he : e ∈ entries) : entryAt entries e.path.str = some e := by
  induction entries with
  | nil => cases he
  | cons e' entries ih =>
    obtain ⟨hnew, hnodup⟩ := nodup_cons.mp hnodup
    rcases mem_cons.mp he with rfl | he
    · exact List.find?_cons_of_pos (decide_eq_true rfl)
    · have hne : e'.path.str ≠ e.path.str := fun h => hnew (mem_map.mpr ⟨e, he, h.symm⟩)
      rw [entryAt, List.find?_cons_of_neg (by simpa using hne)]
      exact ih hnodup he

theorem entryAt_eq_none_iff {path : String} :
    entryAt entries path = none ↔ path ∉ paths entries := by
  simp [entryAt, paths]

theorem kind_left (hsrc : (paths src).Nodup) (hsf : sf ∈ src) :
    some FileActionType.add = actionFor src dst sf.path.str ↔ sf.path.str ∉ paths dst := by
  rw [actionFor, entryAt_of_mem hsrc hsf, ← entryAt_eq_none_iff]
  cases entryAt dst sf.path.str with
  | none => simp
  | some df =>
    dsimp only
    split_ifs <;> simp

theorem kind_right (hdst : (paths dst).Nodup) (hdf : df ∈ dst) :
    some FileActionType.delete = actionFor src dst df.path.str ↔ df.path.str ∉ paths src := by
  rw [actionFor, entryAt_of_mem hdst hdf, ← entryAt_eq_none_iff]
  cases entryAt src df.path.str with
  | none => simp
  | some sf =>
    dsimp only
    split_ifs <;> simp

theorem kind_both (hsrc : (paths src).Nodup) (hdst : (paths dst).Nodup)
    (hsf : sf ∈ src) (hdf : df ∈ dst) (heq : sf.path.str = df.path.str) :
    some (compareAction sf df).action = actionFor src dst sf.path.str := by
  have hentry : entryAt dst sf.path.str = some df := heq ▸ entryAt_of_mem hdst hdf
  rw [actionFor, entryAt_of_mem hsrc hsf, hentry, compareAction]
  by_cases hsame : Agree sf df
  · rw [if_pos ((isSame_iff sf df).mpr hsame)]
    dsimp only
    rw [if_pos hsame]
  · rw [if_neg (fun h => hsame ((isSame_iff sf df).mp h))]
    dsimp only
    rw [if_neg hsame]

theorem kind_iff_separates (hsrc : (paths src).Nodup) (hdst : (paths dst).Nodup) :
    (∀ a ∈ (mergeBy pathOf src dst).map actionOf, some a.action = actionFor src dst a.relPath) ↔
      Separates pathOf src dst := by
  rw [forall_mem_map]
  refine forall₂_congr fun o ho => ?_
  have hmem := of_mem_mergeBy ho
  cases o with
  | left sf => exact kind_left hsrc hmem
  | right df => exact kind_right hdst hmem
  | both sf df =>
    refine iff_of_true ?_ trivial
    rw [relPath_actionOf]
    exact kind_both hsrc hdst hmem.1 hmem.2.1 hmem.2.2

theorem isTreeDiff_iff_separates (hsrc : (paths src).Nodup) (hdst : (paths dst).Nodup)
    (h : Reports src dst .zero actions summary) :
    IsTreeDiff src dst actions summary ↔ Separates pathOf src dst := by
  obtain ⟨rfl, rfl⟩ := h
  constructor
  · intro hdiff
    exact (kind_iff_separates hsrc hdst).mp hdiff.kind
  · intro hseparates
    obtain ⟨hunchanged, hmodified, hadded, hdeleted⟩ :=
      counts_foldl ((mergeBy pathOf src dst).map actionOf) .zero
    have hkeys : ((mergeBy pathOf src dst).map actionOf).map (·.relPath) =
        (mergeBy pathOf src dst).map (Paired.keyBy pathOf) := by
      rw [map_map]
      exact map_congr_left fun o _ => relPath_actionOf o
    refine ⟨fun path => ?_, (kind_iff_separates hsrc hdst).mpr hseparates, ?_, ?_, ?_, ?_⟩
    · rw [hkeys, (hseparates.nodup hsrc hdst).count]
      exact if_congr mem_keys_mergeBy rfl rfl
    · exact hunchanged.trans (Nat.zero_add _)
    · exact hmodified.trans (Nat.zero_add _)
    · exact hadded.trans (Nat.zero_add _)
    · exact hdeleted.trans (Nat.zero_add _)

end TreeDiff

/-! ## The manifests of two trees -/

theorem nodup_of_pairwise {ps : List String} (h : ps.Pairwise WalkBefore) : ps.Nodup := by
  refine h.imp fun hpq heq => ?_
  subst heq
  exact walkBefore_asymm _ _ hpq hpq

theorem yields_manifestOfTree (hZ : SoundFrames Z) {params : ChunkParams} {tree : DirectoryTree}
    {written : ManifestBegin × ManifestEnd × Bytes}
    (h : manifestOfTree Z H params tree = .ok written) :
    ∃ entries r, tree.entries H = .ok entries ∧
      ManifestReader.openSpill written.2.2 written.1.manifestHash = .ok r ∧
      ∀ listed, r.Yields Z H listed ↔ Readable entries ∧ listed = entries := by
  obtain ⟨entries, hentries, hwrite⟩ := manifestOfTree_ok h
  obtain ⟨r, hopen, hstanding⟩ := standing_written (finished_writeManifest hwrite)
  refine ⟨entries, r, hentries, hopen, fun listed => ?_⟩
  have hflat : (batches entries).flatten = entries := flatten_batchesFrom [] entries
  have hcanonical : entries.map FileEntry.canonical = entries := by
    have hall := (DirectoryTree.listed hentries).1
    exact (map_congr_left fun e he => (canonical_eq_iff e).mpr (hall e he)).trans
      (map_id entries)
  rw [hstanding.yields_iff hZ, GetsThrough, nil_append, hflat, hcanonical]
  constructor
  · rintro ⟨hchecked, hfits, hlisted⟩
    exact ⟨⟨hchecked, hfits⟩, hlisted⟩
  · rintro ⟨hreadable, hlisted⟩
    exact ⟨hreadable.checked, hreadable.batch_bytes, hlisted⟩

variable {srcManifest dstManifest : ManifestBegin × ManifestEnd × Bytes}
variable {srcParams dstParams : ChunkParams}

theorem diffManifestSpillFiles_ok_iff (hZ : SoundFrames Z)
    (hsrc : manifestOfTree Z H srcParams srcTree = .ok srcManifest)
    (hdst : manifestOfTree Z H dstParams dstTree = .ok dstManifest) :
    ∃ src dst, srcTree.entries H = .ok src ∧ dstTree.entries H = .ok dst ∧
      ∀ actions summary, diffManifestSpillFiles Z H srcManifest.2.2 srcManifest.1.manifestHash
          dstManifest.2.2 dstManifest.1.manifestHash = (actions, .ok summary) ↔
        Readable src ∧ Readable dst ∧ Reports src dst .zero actions summary := by
  obtain ⟨src, srcReader, hsrcEntries, hsrcOpen, hsrcYields⟩ := yields_manifestOfTree hZ hsrc
  obtain ⟨dst, dstReader, hdstEntries, hdstOpen, hdstYields⟩ := yields_manifestOfTree hZ hdst
  refine ⟨src, dst, hsrcEntries, hdstEntries, fun actions summary => ?_⟩
  rw [diffManifestSpillFiles, hsrcOpen, hdstOpen]
  rw [diffManifestReaders_ok_iff]
  simp only [hsrcYields, hdstYields]
  constructor
  · rintro ⟨S, D, ⟨hs, rfl⟩, ⟨hd, rfl⟩, hreports⟩
    exact ⟨hs, hd, hreports⟩
  · rintro ⟨hs, hd, hreports⟩
    exact ⟨src, dst, ⟨hs, rfl⟩, ⟨hd, rfl⟩, hreports⟩

/-- The diff is that of the trees exactly if both manifests can be read and the merge separates the
entries. -/
theorem diffsTrees_iff_separates (hZ : SoundFrames Z)
    (hsrc : manifestOfTree Z H srcParams srcTree = .ok srcManifest)
    (hdst : manifestOfTree Z H dstParams dstTree = .ok dstManifest) :
    ∃ src dst, srcTree.entries H = .ok src ∧ dstTree.entries H = .ok dst ∧
      (DiffsTrees Z H srcTree dstTree srcManifest dstManifest ↔
        Readable src ∧ Readable dst ∧ Separates pathOf src dst) := by
  obtain ⟨src, dst, hsrcEntries, hdstEntries, hdiff⟩ := diffManifestSpillFiles_ok_iff hZ hsrc hdst
  have hsrcNodup : (paths src).Nodup := nodup_of_pairwise (listed hsrcEntries).2
  have hdstNodup : (paths dst).Nodup := nodup_of_pairwise (listed hdstEntries).2
  refine ⟨src, dst, hsrcEntries, hdstEntries, ?_⟩
  constructor
  · rintro ⟨src', dst', actions, summary, hsrc', hdst', hrun, htree⟩
    rw [hsrcEntries] at hsrc'
    rw [hdstEntries] at hdst'
    cases hsrc'
    cases hdst'
    obtain ⟨hs, hd, hreports⟩ := (hdiff actions summary).mp hrun
    exact ⟨hs, hd, (isTreeDiff_iff_separates hsrcNodup hdstNodup hreports).mp htree⟩
  · rintro ⟨hs, hd, hseparates⟩
    have hreports : Reports src dst .zero _ _ := ⟨rfl, rfl⟩
    refine ⟨src, dst, _, _, hsrcEntries, hdstEntries, (hdiff _ _).mpr ⟨hs, hd, hreports⟩, ?_⟩
    exact (isTreeDiff_iff_separates hsrcNodup hdstNodup hreports).mpr hseparates

/-- The entries of two trees are separated if they are in the order of their paths as far as the other
tree is concerned. -/
theorem separates_iff_orderedAlike {src dst : List FileEntry}
    (hsrc : srcTree.entries H = .ok src) (hdst : dstTree.entries H = .ok dst) :
    Separates pathOf src dst ↔ OrderedAlike src dst := by
  refine (separates_iff walkBefore_asymm (listed hsrc).2 (listed hdst).2).trans ?_
  exact ⟨fun ⟨hs, hd⟩ => ⟨hs, hd⟩, fun ⟨hs, hd⟩ => ⟨hs, hd⟩⟩

/-- The streaming diff of the manifests of two trees is the diff of the trees exactly if both
manifests can be read and, in the walk through each tree, every path that the other tree does not have
is smaller as a string than the next path that both have. -/
theorem diffsTrees_iff_diffable (hZ : SoundFrames Z) {srcParams dstParams : ChunkParams}
    {srcTree dstTree : DirectoryTree} {srcManifest dstManifest : ManifestBegin × ManifestEnd × Bytes}
    (hsrc : manifestOfTree Z H srcParams srcTree = .ok srcManifest)
    (hdst : manifestOfTree Z H dstParams dstTree = .ok dstManifest) :
    DiffsTrees Z H srcTree dstTree srcManifest dstManifest ↔ Diffable H srcTree dstTree := by
  obtain ⟨src, dst, hsrcEntries, hdstEntries, hdiff⟩ := diffsTrees_iff_separates hZ hsrc hdst
  rw [hdiff, separates_iff_orderedAlike hsrcEntries hdstEntries]
  constructor
  · rintro ⟨hs, hd, halike⟩
    exact ⟨src, dst, hsrcEntries, hdstEntries, hs, hd, halike⟩
  · rintro ⟨src', dst', hsrc', hdst', hs, hd, halike⟩
    rw [hsrcEntries] at hsrc'
    rw [hdstEntries] at hdst'
    cases hsrc'
    cases hdst'
    exact ⟨hs, hd, halike⟩

/-! ## Two trees -/

def emptyFile : Node := .file ⟨0, 0, none⟩ 0o644 []

def dottedTree : DirectoryTree where
  root := .cons "a" (.dir (.cons "b" emptyFile .nil)) (.cons "a.txt" emptyFile .nil)
  wellFormed := by simp [Forest.WellFormed, Node.WellFormed, Forest.names, emptyFile]

def plainTree : DirectoryTree where
  root := .cons "a.txt" emptyFile .nil
  wellFormed := by simp [Forest.WellFormed, Node.WellFormed, Forest.names, emptyFile]

theorem exists_ok {ε α : Type} {x : Except ε α} (h : x.isOk = true) : ∃ a, x = .ok a := by
  cases x with
  | error e => cases h
  | ok a => exact ⟨a, rfl⟩

theorem manifestOfTree_dotted : ∃ written,
    manifestOfTree storedCompressor (fun _ => zero) .default dottedTree = .ok written :=
  exists_ok (by decide +kernel)

theorem manifestOfTree_plain : ∃ written,
    manifestOfTree storedCompressor (fun _ => zero) .default plainTree = .ok written :=
  exists_ok (by decide)

theorem diffsTrees_iff_dotted : ∃ srcManifest dstManifest,
    manifestOfTree storedCompressor (fun _ => zero) .default dottedTree = .ok srcManifest ∧
    manifestOfTree storedCompressor (fun _ => zero) .default plainTree = .ok dstManifest ∧
    (DiffsTrees storedCompressor (fun _ => zero) dottedTree plainTree srcManifest dstManifest ↔
      Diffable (fun _ => zero) dottedTree plainTree) := by
  obtain ⟨srcManifest, hsrc⟩ := manifestOfTree_dotted
  obtain ⟨dstManifest, hdst⟩ := manifestOfTree_plain
  exact ⟨srcManifest, dstManifest, hsrc, hdst, diffsTrees_iff_diffable soundFrames_stored hsrc hdst⟩

theorem paths_dotted {src : List FileEntry} (h : dottedTree.entries (fun _ => zero) = .ok src) :
    paths src = ["a", "a/b", "a.txt"] := by
  have hpaths : (dottedTree.entries fun _ => zero).map paths = .ok ["a", "a/b", "a.txt"] := by
    decide
  rw [h] at hpaths
  exact Except.ok.inj hpaths

theorem paths_plain {dst : List FileEntry} (h : plainTree.entries (fun _ => zero) = .ok dst) :
    paths dst = ["a.txt"] := by
  have hpaths : (plainTree.entries fun _ => zero).map paths = .ok ["a.txt"] := by
    decide
  rw [h] at hpaths
  exact Except.ok.inj hpaths

/-- The walk comes to `a/b` before `a.txt`, but `a.txt` is the smaller string: it is reported as
deleted when `a/b` is compared with it. -/
theorem not_diffsTrees_dotted : ∃ srcManifest dstManifest,
    manifestOfTree storedCompressor (fun _ => zero) .default dottedTree = .ok srcManifest ∧
    manifestOfTree storedCompressor (fun _ => zero) .default plainTree = .ok dstManifest ∧
    ¬ DiffsTrees storedCompressor (fun _ => zero) dottedTree plainTree srcManifest
      dstManifest := by
  obtain ⟨srcManifest, hsrc⟩ := manifestOfTree_dotted
  obtain ⟨dstManifest, hdst⟩ := manifestOfTree_plain
  refine ⟨srcManifest, dstManifest, hsrc, hdst, fun hdiffs => ?_⟩
  obtain ⟨src, dst, hsrcEntries, hdstEntries, hdiff⟩ :=
    diffsTrees_iff_separates soundFrames_stored hsrc hdst
  have hseparates := (hdiff.mp hdiffs).2.2
  have halike := ((separates_iff_orderedAlike hsrcEntries hdstEntries).mp hseparates).source
  rw [paths_dotted hsrcEntries, paths_plain hdstEntries] at halike
  have hlt : "a/b" < "a.txt" := halike.2.1 (by decide) "a.txt" (by decide)
  exact absurd hlt (by decide)

end Velcrux.Sync
