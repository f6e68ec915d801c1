import Velcrux.Auth.Proofs.LongestGrantProofs
import Velcrux.Session.Tenancy

/-!
# Proofs: one identity and the files of another

Every call of the backend works on a path of the identity or of the staging directory. As long as
all links stay inside the identity's prefixes, what such a path leads to is again one.
-/

namespace Velcrux.Session

open Posix Posix.FileSystem Storage List
open Auth (FileAuthorizer Identity Op)

namespace Tenancy

variable {t : Tenancy} {fs fs' fs0 : FileSystem MarkedData} {p q : Path}
variable {transferId : TransferId} {bytes : MarkedData} {dst : VPath}

/-! ## Paths -/

def Reached (t : Tenancy) (q : Path) : Prop :=
  t.Own q ∨ (∃ home, t.IsHome home ∧ q <+: home) ∨ q <+: t.layout.staging ∨ t.layout.staging <+: q

theorem not_below_both {a b : Path} (h : ¬ a <+: b ∧ ¬ b <+: a) (ha : a <+: q) : ¬ b <+: q :=
  fun hb => (List.prefix_or_prefix_of_prefix ha hb).elim h.1 h.2

theorem upward_own : Upward t.Own := by
  rintro p q ⟨home, hhome, hpre⟩ hq
  exact ⟨home, hhome, hpre.trans hq⟩

theorem reached_of_own (p : Path) (h : t.Own p) : t.Reached p := .inl h

theorem not_foreign_of_own (hdis : t.Disjoint) (h : t.Own q) : ¬ t.Foreign q := by
  obtain ⟨home, hhome, hpre⟩ := h
  exact not_below_both (hdis home hhome) hpre

theorem not_foreign_of_reached (hdis : t.Disjoint) (hstaging : t.StagingApart) (h : t.Reached q) :
    ¬ t.Foreign q := by
  rcases h with hown | ⟨home, hhome, hq⟩ | hq | hq
  · exact not_foreign_of_own hdis hown
  · exact fun hforeign => (hdis home hhome).2 (hforeign.trans hq)
  · exact fun hforeign => hstaging.1.2 (hforeign.trans hq)
  · exact not_below_both hstaging.1 hq

theorem not_own_of_staging (hstaging : t.StagingApart) (h : t.layout.staging <+: q) : ¬ t.Own q := by
  rintro ⟨home, hhome, hpre⟩
  exact not_below_both (hstaging.2 home hhome) h hpre

theorem reached_above (h : t.Own p) (hq : q <+: p) : t.Reached q := by
  obtain ⟨home, hhome, hpre⟩ := h
  rcases List.prefix_or_prefix_of_prefix hq hpre with h | h
  · exact .inr (.inl ⟨home, hhome, h⟩)
  · exact .inl ⟨home, hhome, h⟩

theorem below_staging (transferId : TransferId) (path : String) :
    t.layout.staging <+: t.layout.stagingPath transferId path := by
  rw [LocalLayout.stagingPath, dropLast_append_of_ne_nil]
  · rw [append_assoc, append_assoc]
    exact prefix_append _ _
  · intro h
    exact splitOn_ne_nil '/' path.toList (map_eq_nil_iff.mp h)

theorem reached_staging {path : String}
    (hq : q <+: t.layout.stagingPath transferId path) : t.Reached q := by
  rcases List.prefix_or_prefix_of_prefix hq (below_staging transferId path) with h | h
  · exact .inr (.inr (.inl h))
  · exact .inr (.inr (.inr h))

theorem own_of_check {op : Op} {raw : String} {v : VPath} (hop : ¬ (op = .sync ∨ op = .list))
    (h : t.authorizer.check t.identity op raw = .ok v) : t.Own (t.layout.resolve v.str) := by
  rw [Auth.check_eq] at h
  split at h
  · cases h
  · rename_i vpath hpath
    split at h
    · cases h
    · rename_i g n hbest
      split_ifs at h
      cases h
      obtain ⟨⟨hmem, hid, hcovers⟩, -⟩ := Auth.mem_longest.mp (Auth.bestGrant_mem_longest hbest)
      -- the path is the text of the request without its outer slashes
      have hpathNames : LocalLayout.components v.str = names raw := by
        unfold FileAuthorizer.pathOf at hpath
        dsimp only at hpath
        split_ifs at hpath with htrim
        split at hpath
        · rename_i v' hvalid
          cases hpath
          rw [validate_ok hvalid, LocalLayout.components, String.toList_ofList, names,
            Auth.components, if_neg htrim]
        · cases hpath
      refine ⟨_, ⟨g, hmem, hid, rfl⟩, ?_⟩
      rw [LocalLayout.resolve, hpathNames]
      exact (prefix_append_right_inj _).mpr (hcovers.map String.ofList)

/-! ## The invariant -/

structure Safe (t : Tenancy) (fs0 fs : FileSystem MarkedData) : Prop where
  confined : Confined t.Own fs
  kept : ∀ q, t.Foreign q → fs.node q = fs0.node q
  clean : ∀ q bytes, fs.node q = some (.file bytes) → ¬ t.Foreign q → ∀ b ∈ bytes, b.secret = false

structure Separate (t : Tenancy) : Prop where
  disjoint : t.Disjoint
  staging : t.StagingApart

theorem Fresh.safe (h : t.Fresh fs) : t.Safe fs fs := by
  refine ⟨fun q target hq => absurd hq (h.no_links q target), fun _ _ => rfl, ?_⟩
  intro q bytes hq hforeign b hb
  rw [← Bool.not_eq_true, h.marked q bytes hq b hb]
  exact hforeign

namespace Safe

variable (hs : t.Safe fs0 fs)
include hs

theorem set (ht : t.Separate) {x : Option (Node MarkedData)} (hp : t.Reached p)
    (hlink : ∀ target, x = some (.link target) → t.Own p ∧ Contained t.Own p target)
    (hfile : ∀ bytes, x = some (.file bytes) → ∀ b ∈ bytes, b.secret = false)
    (hafter : ∀ q, fs'.node q = if q = p then x else fs.node q) : t.Safe fs0 fs' := by
  refine ⟨fun q target hq => ?_, fun q hq => ?_, fun q bytes hq hforeign => ?_⟩
  · rw [hafter] at hq
    split_ifs at hq with heq
    · subst heq
      exact hlink target hq
    · exact hs.confined q target hq
  · have hne : q ≠ p := by
      rintro rfl
      exact not_foreign_of_reached ht.disjoint ht.staging hp hq
    rw [hafter, if_neg hne]
    exact hs.kept q hq
  · rw [hafter] at hq
    split_ifs at hq
    · exact hfile bytes hq
    · exact hs.clean q bytes hq hforeign

theorem grows (ht : t.Separate) (h : Grows t.Reached fs fs') : t.Safe fs0 fs' := by
  refine ⟨h.confined hs.confined, fun q hq => ?_, fun q bytes hq hforeign => ?_⟩
  · rcases h q with heq | ⟨-, -, hreached⟩
    · rw [heq]
      exact hs.kept q hq
    · exact absurd hq (not_foreign_of_reached ht.disjoint ht.staging hreached)
  · rcases h q with heq | ⟨-, hdir, -⟩
    · exact hs.clean q bytes (heq ▸ hq) hforeign
    · rw [hdir] at hq
      cases hq

theorem createDirAll (ht : t.Separate) (hp : ∀ q, q <+: p → t.Reached q)
    (h : fs.createDirAll p = .ok fs') : t.Safe fs0 fs' :=
  hs.grows ht (createDirAll_grows upward_own reached_of_own hs.confined hp h)

theorem own_place {follow : Bool} {place : Place} (hp : t.Own p)
    (h : fs.resolve follow p = .ok place) : t.Own place.path :=
  resolve_within upward_own (fun _ h => h) hs.confined hp h

theorem read (ht : t.Separate) {v : VPath} (hp : t.Own (t.layout.resolve v.str))
    (h : t.layout.openRead fs v = .ok bytes) : ∀ b ∈ bytes, b.secret = false := by
  unfold LocalLayout.openRead readFile stat at h
  cases hnode : fs.nodeAt true (t.layout.resolve v.str) with
  | error e =>
    rw [hnode] at h
    cases h
  | ok r =>
    obtain ⟨q, x⟩ := r
    obtain ⟨hres, hx⟩ := nodeAt_ok hnode
    rw [hnode] at h
    cases x with
    | file d =>
      cases h
      exact hs.clean q bytes hx (not_foreign_of_own ht.disjoint (hs.own_place hp hres))
    | _ => cases h

theorem removeOld (ht : t.Separate) (hp : t.Own p) : t.Safe fs0 (LocalLayout.removeOld fs p) := by
  unfold LocalLayout.removeOld
  split_ifs
  · cases hun : fs.unlink p with
    | error e => exact hs
    | ok fs' =>
      obtain ⟨q, x, hnode, -, hafter⟩ := unlink_ok hun
      refine hs.set ht (reached_of_own q (hs.own_place hp (nodeAt_ok hnode).1)) ?_ ?_ hafter
      · exact nofun
      · exact nofun
  · exact hs

theorem clearSite (ht : t.Separate) (hp : t.Own p) (h : LocalLayout.clearSite fs p = .ok fs') :
    t.Safe fs0 fs' := by
  unfold LocalLayout.clearSite at h
  split at h
  · cases h
  · rename_i fs1 hdirs
    cases h
    have hs1 : t.Safe fs0 fs1 :=
      hs.createDirAll ht (fun q hq => reached_above hp (hq.trans (List.dropLast_prefix _))) hdirs
    exact hs1.removeOld ht hp

theorem settle {r : Except Errno (FileSystem MarkedData)}
    (hr : ∀ fs', r = .ok fs' → t.Safe fs0 fs') : t.Safe fs0 (LocalLayout.settle fs r).1 := by
  cases r with
  | error e => exact hs
  | ok fs' => exact hr fs' rfl

theorem createSymlink (ht : t.Separate) {target : String} (hp : t.Own (t.layout.resolve dst.str))
    (hinside : ∀ fs', LocalLayout.clearSite fs (t.layout.resolve dst.str) = .ok fs' →
      t.StaysInside fs' dst target) :
    t.Safe fs0 (t.layout.createSymlink fs dst target).1 := by
  unfold LocalLayout.createSymlink
  split_ifs
  · exact hs
  split
  · exact hs
  · rename_i fs1 hsite
    have hs1 := hs.clearSite ht hp hsite
    refine hs1.settle fun fs' h => ?_
    obtain ⟨place, hres, hafter⟩ := symlink_ok h
    have hown := hs1.own_place hp hres
    refine hs1.set ht (reached_of_own _ hown) (fun target' heq => ?_) (fun _ h => by cases h) hafter
    cases heq
    exact ⟨hown, hinside fs1 hsite place hres⟩

theorem createHardlink (ht : t.Separate) {src : VPath}
    (hsrc : t.Own (t.layout.resolve src.str)) (hdst : t.Own (t.layout.resolve dst.str))
    (hinside : ∀ fs' target, LocalLayout.clearSite fs (t.layout.resolve dst.str) = .ok fs' →
      fs'.lstat (t.layout.resolve src.str) = .ok (.link target) → t.StaysInside fs' dst target) :
    t.Safe fs0 (t.layout.createHardlink fs dst src).1 := by
  unfold LocalLayout.createHardlink
  split_ifs
  · exact hs
  split
  · exact hs
  · rename_i fs1 hsite
    have hs1 := hs.clearSite ht hdst hsite
    refine hs1.settle fun fs' h => ?_
    obtain ⟨p, x, place, hnode, hres, hafter⟩ := link_ok h
    have hown := hs1.own_place hdst hres
    refine hs1.set ht (reached_of_own _ hown) (fun target heq => ?_) (fun bytes heq => ?_) hafter
    · cases heq
      have hstat : fs1.lstat (t.layout.resolve src.str) = .ok (.link target) := by
        rw [lstat, hnode]
        rfl
      exact ⟨hown, hinside fs1 target hsite hstat place hres⟩
    · cases heq
      obtain ⟨hfrom, hx⟩ := nodeAt_ok hnode
      exact hs1.clean p bytes hx (not_foreign_of_own ht.disjoint (hs1.own_place hsrc hfrom))

theorem stage (ht : t.Separate) (hbytes : ∀ b ∈ bytes, b.secret = false) :
    t.Safe fs0 (t.layout.stage fs transferId dst bytes).1 := by
  unfold LocalLayout.stage
  split
  · exact hs
  · rename_i fs1 hdirs
    have hs1 : t.Safe fs0 fs1 := hs.createDirAll ht
      (fun q hq => reached_staging (hq.trans (List.dropLast_prefix _))) hdirs
    refine hs1.settle fun fs' h => ?_
    obtain ⟨place, -, hres, hafter⟩ := writeFile_ok h
    have hreached : t.Reached place.path :=
      resolve_within upward_own reached_of_own hs1.confined (reached_staging prefix_rfl) hres
    refine hs1.set ht hreached (fun _ h => by cases h) (fun bytes' heq => ?_) hafter
    cases heq
    exact hbytes

theorem not_link_of_staging (ht : t.Separate) {path target : String}
    (hq : q <+: t.layout.stagingPath transferId path) : fs.node q ≠ some (.link target) := by
  intro hlink
  have hown : t.Own q := (hs.confined q target hlink).1
  exact not_own_of_staging ht.staging (below_staging transferId path) (upward_own _ _ hown hq)

theorem commit (ht : t.Separate)
    (hdst : t.Own (t.layout.resolve dst.str)) : t.Safe fs0 (t.layout.commit fs transferId dst).1 := by
  unfold LocalLayout.commit
  split
  · exact hs
  · rename_i fs1 hdirs
    have hs1 : t.Safe fs0 fs1 := hs.createDirAll ht
      (fun q hq => reached_above hdst (hq.trans (List.dropLast_prefix _))) hdirs
    refine hs1.settle fun fs' h => ?_
    rcases rename_ok h with rfl | ⟨p, x, place, hnode, hdir, hres, -, hafter⟩
    · exact hs1
    have hp : p <+: t.layout.stagingPath transferId dst.str := by
      have hplain : Plain fs1 (t.layout.stagingPath transferId dst.str) :=
        fun q hq _ target => hs1.not_link_of_staging ht hq
      rcases eq_or_ne (t.layout.stagingPath transferId dst.str) [] with hnil | hne
      · rw [hnil, nodeAt_false fs1.root] at hnode
        cases hnode
        exact absurd rfl hdir
      · rw [path_of_plain hplain hne hnode]
    obtain ⟨-, hx⟩ := nodeAt_ok hnode
    -- the staging file leaves its name and takes the new one
    have hs2 : t.Safe fs0 (fs1.unbind p (dirAt_false hx hdir)) :=
      hs1.set ht (reached_staging hp) (fun _ h => by cases h) (fun _ h => by cases h)
        fun q => node_unbind ..
    have hown := hs1.own_place hdst hres
    refine hs2.set ht (reached_of_own _ hown) (fun target heq => ?_) (fun bytes heq => ?_) hafter
    · cases heq
      exact absurd hx (hs1.not_link_of_staging ht hp)
    · cases heq
      exact hs1.clean p bytes hx (not_foreign_of_reached ht.disjoint ht.staging (reached_staging hp))

end Safe

/-! ## Runs -/

theorem assemble_clean {base : MarkedData} (hbase : ∀ b ∈ base, b.secret = false)
    (parts : List UploadPart) : ∀ b ∈ assemble base parts, b.secret = false := by
  intro b hb
  obtain ⟨part, -, hb⟩ := mem_flatMap.mp hb
  cases part with
  | sent bytes =>
    obtain ⟨v, -, rfl⟩ := mem_map.mp hb
    rfl
  | copied offset length =>
    exact hbase b (mem_of_mem_drop (mem_of_mem_take hb))

theorem fst_answer (r : FileSystem MarkedData × Except BackendError Unit) : (answer r).1 = r.1 := by
  obtain ⟨fs, r⟩ := r
  cases r <;> rfl

theorem data_ne_answer (r : FileSystem MarkedData × Except BackendError Unit) (bytes : MarkedData) :
    (answer r).2 ≠ .data bytes := by
  obtain ⟨fs, r⟩ := r
  cases r <;> exact nofun

namespace Safe

variable (hs : t.Safe fs0 fs)
include hs

theorem upload (ht : t.Separate)
    (hdst : t.Own (t.layout.resolve dst.str)) (parts : List UploadPart) :
    t.Safe fs0 (t.upload fs transferId dst parts).1 := by
  have hbase : ∀ b ∈ (t.layout.openRead fs dst).toOption.getD [], b.secret = false := by
    cases hread : t.layout.openRead fs dst with
    | error e => exact nofun
    | ok bytes => exact hs.read ht hdst hread
  have hstage : t.Safe fs0 (t.layout.stage fs transferId dst _).1 :=
    hs.stage ht (assemble_clean hbase parts)
  unfold Tenancy.upload
  dsimp only
  split
  · rename_i fs1 e heq
    rw [heq] at hstage
    exact hstage
  · rename_i fs1 u heq
    rw [heq] at hstage
    rw [fst_answer]
    exact hstage.commit ht hdst

theorem download (ht : t.Separate) {src : VPath}
    (hsrc : t.Own (t.layout.resolve src.str)) (h : t.download fs src = .data bytes) :
    ∀ b ∈ bytes, b.secret = false := by
  unfold Tenancy.download at h
  split at h
  · cases h
  · cases h
  · split at h
    · cases h
    · rename_i bytes' hread
      cases h
      exact hs.read ht hsrc hread

theorem handle (ht : t.Separate) {r : TenantRequest} (hinside : t.LinksInside fs r) :
    t.Safe fs0 (t.handle fs r).1 ∧
      ∀ bytes, (t.handle fs r).2 = .data bytes → ∀ b ∈ bytes, b.secret = false := by
  have hop : ∀ op : Op, op = .upload ∨ op = .download → ¬ (op = .sync ∨ op = .list) := by
    rintro op (rfl | rfl) <;> exact by decide
  cases r with
  | upload transferId path parts =>
    rw [Tenancy.handle]
    split
    · exact ⟨hs, nofun⟩
    · rename_i dst hcheck
      refine ⟨hs.upload ht (own_of_check (hop _ (.inl rfl)) hcheck) parts, fun bytes h => ?_⟩
      unfold Tenancy.upload at h
      dsimp only at h
      split at h
      · cases h
      · exact absurd h (data_ne_answer _ bytes)
  | download path =>
    rw [Tenancy.handle]
    split
    · exact ⟨hs, nofun⟩
    · rename_i src hcheck
      exact ⟨hs, fun bytes h => hs.download ht (own_of_check (hop _ (.inr rfl)) hcheck) h⟩
  | symlink path target =>
    rw [Tenancy.handle]
    split
    · exact ⟨hs, nofun⟩
    · rename_i dst hcheck
      split
      · exact ⟨hs, nofun⟩
      · refine ⟨?_, fun bytes h => absurd h (data_ne_answer _ bytes)⟩
        rw [fst_answer]
        exact hs.createSymlink ht (own_of_check (hop _ (.inl rfl)) hcheck)
          fun fs' hsite => hinside dst fs' hcheck hsite
  | hardlink srcPath dstPath =>
    rw [Tenancy.handle]
    split
    · exact ⟨hs, nofun⟩
    · rename_i src hsrc
      split
      · exact ⟨hs, nofun⟩
      · rename_i dst hdst
        split
        · refine ⟨?_, fun bytes h => absurd h (data_ne_answer _ bytes)⟩
          rw [fst_answer]
          exact hs.createHardlink ht (own_of_check (hop _ (.inl rfl)) hsrc)
            (own_of_check (hop _ (.inl rfl)) hdst)
            fun fs' target hsite hlink => hinside src dst fs' target hsrc hdst hsite hlink
        · exact ⟨hs, nofun⟩

theorem run (ht : t.Separate) {requests : List TenantRequest}
    (hinside : t.LinksInsideRun fs requests) :
    t.Safe fs0 (t.run fs requests).1 ∧
      ∀ bytes, .data bytes ∈ (t.run fs requests).2 → ∀ b ∈ bytes, b.secret = false := by
  induction requests generalizing fs with
  | nil => exact ⟨hs, nofun⟩
  | cons r requests ih =>
    obtain ⟨hr, hrest⟩ := hinside
    obtain ⟨hstep, hreply⟩ := hs.handle ht hr
    obtain ⟨hend, hreplies⟩ := ih hstep hrest
    refine ⟨hend, fun bytes hmem => ?_⟩
    rcases mem_cons.mp hmem with heq | hmem
    · exact hreply bytes heq.symm
    · exact hreplies bytes hmem

end Safe

/-- As long as the links that are made stay inside the prefixes of the identity, it neither reads nor
changes anything under the other one. -/
theorem isolated_of_linksInside (hdisjoint : t.Disjoint) (hstaging : t.StagingApart)
    (hfresh : t.Fresh fs) {requests : List TenantRequest} (hinside : t.LinksInsideRun fs requests) :
    t.Isolated fs requests := by
  obtain ⟨hsafe, hreplies⟩ := hfresh.safe.run ⟨hdisjoint, hstaging⟩ hinside
  exact ⟨hreplies, hsafe.kept⟩

/-! ## Two tenants -/

def neighbours : Tenancy where
  authorizer := ⟨[⟨"alice", "a", ⟨0x03⟩⟩]⟩
  identity := ⟨"alice", "", "", ""⟩
  layout := ⟨["srv"], ["staging"], fun _ => "t"⟩
  foreign := ["p"]

def neighbourTree : FileSystem MarkedData :=
  populate [(["srv"], .dir), (["staging"], .dir), (["srv", "a"], .dir), (["srv", "p"], .dir),
    (["srv", "p", "secret"], .file [⟨7, true⟩])]

theorem isHome_neighbours {home : Path} (h : neighbours.IsHome home) : home = ["srv", "a"] := by
  obtain ⟨g, hg, -, rfl⟩ := h
  obtain rfl := mem_singleton.mp hg
  decide

theorem own_neighbours : neighbours.Own q ↔ ["srv", "a"] <+: q := by
  constructor
  · rintro ⟨home, hhome, hpre⟩
    exact isHome_neighbours hhome ▸ hpre
  · refine fun h => ⟨_, ⟨_, mem_singleton_self _, rfl, ?_⟩, h⟩
    decide

theorem disjoint_neighbours : neighbours.Disjoint := by
  intro home hhome
  rw [isHome_neighbours hhome]
  exact ⟨by decide, by decide⟩

theorem stagingApart_neighbours : neighbours.StagingApart := by
  refine ⟨⟨by decide, by decide⟩, fun home hhome => ?_⟩
  rw [isHome_neighbours hhome]
  exact ⟨by decide, by decide⟩

theorem fresh_neighbourTree : neighbours.Fresh neighbourTree := by
  constructor
  · intro q target hq
    rcases node_populate hq with ⟨-, h⟩ | h
    · cases h
    · simp at h
  · intro q bytes hq b hb
    rcases node_populate hq with ⟨-, h⟩ | h
    · cases h
    · simp only [mem_cons, Prod.mk.injEq, reduceCtorEq, and_false, Posix.Node.file.injEq,
        not_mem_nil, or_false, false_or] at h
      obtain ⟨rfl, rfl⟩ := h
      obtain rfl := mem_singleton.mp hb
      have hforeign : ["srv", "p"] <+: ["srv", "p", "secret"] := by decide
      exact ⟨fun _ => hforeign, fun _ => rfl⟩

theorem isolated_neighbours :
    neighbours.Isolated neighbourTree [.symlink "a/l" "f", .download "a/l"] := by
  refine isolated_of_linksInside disjoint_neighbours stagingApart_neighbours fresh_neighbourTree
    ⟨fun dst fs' hcheck hsite place hres => ?_, trivial, trivial⟩
  have hdst : neighbours.authorizer.check neighbours.identity .upload "a/l" = .ok ⟨"a/l"⟩ := by
    decide
  rw [hdst] at hcheck
  cases hcheck
  have hplace : (match LocalLayout.clearSite neighbourTree (neighbours.layout.resolve "a/l") with
      | .ok fs' => (fs'.resolve false (neighbours.layout.resolve "a/l")).map Place.path
      | .error e => .error e) = .ok ["srv", "a", "l"] := by decide
  rw [hsite] at hplace
  dsimp only at hplace
  rw [hres] at hplace
  rw [Except.ok.inj hplace]
  exact ⟨rfl, ["srv", "a", "f"], by decide, own_neighbours.mpr (by decide)⟩

/-- A link out of `a` is accepted because it stays in the storage root. -/
theorem not_isolated_neighbours : neighbours.Disjoint ∧ neighbours.StagingApart ∧
    neighbours.Fresh neighbourTree ∧
    ¬ neighbours.Isolated neighbourTree [.symlink "a/l" "../p/secret", .download "a/l"] := by
  refine ⟨disjoint_neighbours, stagingApart_neighbours, fresh_neighbourTree, fun h => ?_⟩
  have hreply : TenantReply.data [⟨7, true⟩] ∈
      (neighbours.run neighbourTree [.symlink "a/l" "../p/secret", .download "a/l"]).2 := by
    decide
  have hsecret := h.1 _ hreply ⟨7, true⟩ (mem_singleton_self _)
  cases hsecret

end Tenancy

end Velcrux.Session
