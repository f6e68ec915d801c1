import Velcrux.Auth.LongestGrant

/-!
# When the check follows the longest grant

The loop over the grants is a running maximum over the byte lengths of the matching prefixes, which
agree with the numbers of their components. Of several longest grants the first decides.
-/

namespace Velcrux.Auth

open List FileAuthorizer

open Storage (VPath byteLen)

variable {p q : String} {grants : List Grant} {g : Grant} {vpath : VPath}

/-! ## Components -/

section Components

variable {gp path : List Char}

theorem byteLen_append (xs ys : List Char) : byteLen (xs ++ ys) = byteLen xs + byteLen ys := by
  simp [byteLen]

theorem byteLen_pos {xs : List Char} (h : xs ≠ []) : 0 < byteLen xs := by
  cases xs with
  | nil => exact absurd rfl h
  | cons c cs =>
    have hc := Char.utf8Size_pos c
    simp only [byteLen, map_cons, sum_cons]
    omega

theorem intercalate_append {xs ys : List (List Char)} (hx : xs ≠ []) (hy : ys ≠ []) :
    ['/'].intercalate (xs ++ ys) = ['/'].intercalate xs ++ '/' :: ['/'].intercalate ys := by
  induction xs with
  | nil => exact absurd rfl hx
  | cons x xs ih =>
    rw [cons_append, intercalate_cons_of_ne_nil (by simp [hy])]
    cases xs with
    | nil => simp
    | cons x' xs => rw [ih (by simp), intercalate_cons_cons, append_assoc, append_assoc,
        append_assoc]

theorem splitOn_prefix_iff :
    gp.splitOn '/' <+: path.splitOn '/' ↔
      path = gp ∨ (gp <+: path ∧ (path.drop gp.length).head? = some '/') := by
  constructor
  · rintro ⟨rest, hrest⟩
    have hjoin : path = ['/'].intercalate (gp.splitOn '/' ++ rest) := by
      rw [hrest, intercalate_splitOn]
    cases rest with
    | nil =>
      rw [append_nil, intercalate_splitOn] at hjoin
      exact .inl hjoin
    | cons r rs =>
      rw [intercalate_append (splitOn_ne_nil _ _) (by simp), intercalate_splitOn] at hjoin
      right
      rw [hjoin]
      exact ⟨prefix_append _ _, by simp⟩
  · rintro (rfl | ⟨⟨rest, rfl⟩, hhead⟩)
    · exact prefix_refl _
    · rw [drop_left] at hhead
      cases rest with
      | nil => cases hhead
      | cons c rest =>
        obtain rfl : c = '/' := by simpa using hhead
        rw [splitOn_append_cons_self]
        exact prefix_append _ _

end Components

theorem prefixMatchLen_eq (grantPrefix rawPath : String) :
    prefixMatchLen grantPrefix (trimSlashes rawPath) =
      if components grantPrefix <+: components rawPath then some (byteLen (trimSlashes grantPrefix))
      else none := by
  unfold prefixMatchLen components
  by_cases hg : trimSlashes grantPrefix = []
  · simp [hg, byteLen]
  · rw [if_neg hg, if_neg hg]
    by_cases hp : trimSlashes rawPath = []
    · simp [hp, hg]
    · rw [if_neg hp]
      by_cases hm : (trimSlashes grantPrefix).splitOn '/' <+: (trimSlashes rawPath).splitOn '/'
      · rw [if_pos hm]
        rcases splitOn_prefix_iff.mp hm with heq | hslash
        · rw [if_pos heq]
        · rw [if_pos hslash, ite_self]
      · have hno := mt splitOn_prefix_iff.mpr hm
        rw [not_or] at hno
        rw [if_neg hm, if_neg hno.1, if_neg hno.2]

theorem intercalate_components (path : String) :
    ['/'].intercalate (components path) = trimSlashes path := by
  unfold components
  split_ifs with h
  · rw [h]
    rfl
  · exact intercalate_splitOn _

theorem byteLen_lt_of_components (h : components p <+: components q)
    (hlt : (components p).length < (components q).length) :
    byteLen (trimSlashes p) < byteLen (trimSlashes q) := by
  obtain ⟨rest, hrest⟩ := h
  have hne : rest ≠ [] := by
    rintro rfl
    rw [append_nil] at hrest
    rw [hrest] at hlt
    exact Nat.lt_irrefl _ hlt
  cases hp : components p with
  | nil =>
    have hq : trimSlashes q ≠ [] := by
      intro hnil
      have hcq : components q = [] := if_pos hnil
      rw [hcq] at hlt
      exact Nat.not_lt_zero _ hlt
    have hzero : trimSlashes p = [] := by
      rw [← intercalate_components p, hp]
      rfl
    rw [hzero]
    exact byteLen_pos hq
  | cons x xs =>
    rw [← intercalate_components p, ← intercalate_components q, ← hrest, hp,
      intercalate_append (by simp) hne, byteLen_append]
    exact Nat.lt_add_of_pos_right (byteLen_pos (by simp))

theorem byteLen_le_of_components (h : components p <+: components q) :
    byteLen (trimSlashes p) ≤ byteLen (trimSlashes q) := by
  rcases h.length_le.lt_or_eq with hlt | heq
  · exact (byteLen_lt_of_components h hlt).le
  · rw [← intercalate_components p, ← intercalate_components q, h.eq_of_length heq]

theorem byteLen_le_iff {path : String} (hp : components p <+: components path)
    (hq : components q <+: components path) :
    byteLen (trimSlashes p) ≤ byteLen (trimSlashes q) ↔
      (components p).length ≤ (components q).length := by
  constructor
  · by_contra hlt
    have hpre := prefix_of_prefix_length_le hq hp (by omega)
    have hbytes := byteLen_lt_of_components hpre (by omega)
    omega
  · intro hle
    exact byteLen_le_of_components (prefix_of_prefix_length_le hp hq hle)

/-! ## The loop over the grants -/

section Loop

variable {identity : Identity} {rawPath : String}

def found (identity : Identity) (rawPath : String) (grants : List Grant) : List (Grant × ℕ) :=
  (grants.filter fun g => g.Covers identity rawPath).map fun g =>
    (g, byteLen (trimSlashes g.pathPrefix))

theorem bestGrant_eq_foldl (grants : List Grant) (best : Option (Grant × ℕ)) :
    bestGrant identity (trimSlashes rawPath) grants best =
      (found identity rawPath grants).foldl (List.argAux fun b c => c.2 < b.2) best := by
  induction grants generalizing best with
  | nil => rfl
  | cons g grants ih =>
    rw [bestGrant, found, filter_cons]
    by_cases hid : g.identity = identity.name
    · rw [if_neg (not_not.mpr hid), prefixMatchLen_eq]
      by_cases hc : components g.pathPrefix <+: components rawPath
      · have hcov : g.Covers identity rawPath := ⟨hid, hc⟩
        rw [if_pos hc, decide_eq_true hcov, if_pos rfl, map_cons, foldl_cons]
        cases best with
        | none => exact ih _
        | some b =>
          dsimp only
          rw [ih]
          congr 1
      · have hcov : ¬ g.Covers identity rawPath := fun h => hc h.2
        rw [if_neg hc, decide_eq_false hcov]
        exact ih _
    · have hcov : ¬ g.Covers identity rawPath := fun h => hid h.1
      rw [if_pos hid, decide_eq_false hcov]
      exact ih _

theorem bestGrant_eq_argmax (grants : List Grant) :
    bestGrant identity (trimSlashes rawPath) grants none =
      (found identity rawPath grants).argmax Prod.snd :=
  bestGrant_eq_foldl grants none

theorem mem_found {m : Grant × ℕ} :
    m ∈ found identity rawPath grants ↔
      m.1 ∈ grants ∧ m.1.Covers identity rawPath ∧ m.2 = byteLen (trimSlashes m.1.pathPrefix) := by
  obtain ⟨g, n⟩ := m
  simp only [found, mem_map, mem_filter, decide_eq_true_eq, Prod.mk.injEq]
  constructor
  · rintro ⟨g', ⟨hmem, hc⟩, rfl, rfl⟩
    exact ⟨hmem, hc, rfl⟩
  · rintro ⟨hmem, hc, rfl⟩
    exact ⟨g, ⟨hmem, hc⟩, rfl, rfl⟩

theorem mem_longest :
    g ∈ longest grants identity rawPath ↔
      (g ∈ grants ∧ g.Covers identity rawPath) ∧
        ∀ g' ∈ grants, g'.Covers identity rawPath →
          (components g'.pathPrefix).length ≤ (components g.pathPrefix).length := by
  simp only [longest, mem_filter, all_eq_true, decide_eq_true_eq, and_imp]

theorem mem_longest_of_max {m : Grant × ℕ} (hm : m ∈ found identity rawPath grants)
    (hmax : ∀ m' ∈ found identity rawPath grants, m'.2 ≤ m.2) :
    m.1 ∈ longest grants identity rawPath := by
  obtain ⟨hmem, hc, hlen⟩ := mem_found.mp hm
  refine mem_longest.mpr ⟨⟨hmem, hc⟩, ?_⟩
  intro g' hg' hc'
  have hle := hmax (g', byteLen (trimSlashes g'.pathPrefix)) (mem_found.mpr ⟨hg', hc', rfl⟩)
  rw [hlen] at hle
  exact (byteLen_le_iff hc'.2 hc.2).mp hle

theorem bestGrant_mem_longest {n : ℕ}
    (h : bestGrant identity (trimSlashes rawPath) grants none = some (g, n)) :
    g ∈ longest grants identity rawPath := by
  rw [bestGrant_eq_argmax] at h
  have hm : (g, n) ∈ (found identity rawPath grants).argmax Prod.snd := h
  refine mem_longest_of_max (argmax_mem hm) ?_
  intro m' hm'
  exact le_of_mem_argmax hm' hm

theorem bestGrant_eq_none_iff :
    bestGrant identity (trimSlashes rawPath) grants none = none ↔
      longest grants identity rawPath = [] := by
  constructor
  · intro h
    rw [bestGrant_eq_argmax, argmax_eq_none] at h
    refine eq_nil_iff_forall_not_mem.mpr fun g hg => ?_
    obtain ⟨⟨hmem, hc⟩, -⟩ := mem_longest.mp hg
    have hf : (g, byteLen (trimSlashes g.pathPrefix)) ∈ found identity rawPath grants :=
      mem_found.mpr ⟨hmem, hc, rfl⟩
    rw [h] at hf
    cases hf
  · intro h
    cases hb : bestGrant identity (trimSlashes rawPath) grants none with
    | none => rfl
    | some m =>
      have hmem := bestGrant_mem_longest hb
      rw [h] at hmem
      cases hmem

theorem bestGrant_cons_of_longest (h : g ∈ longest (g :: grants) identity rawPath) :
    bestGrant identity (trimSlashes rawPath) (g :: grants) none =
      some (g, byteLen (trimSlashes g.pathPrefix)) := by
  obtain ⟨⟨-, hc⟩, hmax⟩ := mem_longest.mp h
  rw [bestGrant_eq_argmax, found, filter_cons, if_pos (decide_eq_true hc), map_cons, argmax_cons,
    ← found]
  cases hbest : argmax Prod.snd (found identity rawPath grants) with
  | none => rfl
  | some m =>
    obtain ⟨hmem, hcm, hlen⟩ := mem_found.mp (argmax_mem hbest)
    have hle := (byteLen_le_iff hcm.2 hc.2).mpr (hmax _ (mem_cons_of_mem _ hmem) hcm)
    exact if_neg (by rw [hlen]; exact not_lt.mpr hle)

theorem mem_longest_of_perm {grants' : List Grant} (h : grants'.Perm grants) :
    g ∈ longest grants' identity rawPath ↔ g ∈ longest grants identity rawPath := by
  simp only [mem_longest, h.mem_iff]

/-! ## The decision -/

variable {op : Op}

theorem check_eq (grants : List Grant) :
    check ⟨grants⟩ identity op rawPath =
      match pathOf op rawPath with
      | .error e => .error e
      | .ok vpath =>
        match bestGrant identity (trimSlashes rawPath) grants none with
        | none => .error .permissionDenied
        | some (g, _) =>
          if allows g.permissions op then .ok vpath else .error .permissionDenied := by
  unfold check
  cases pathOf op rawPath with
  | error e => rfl
  | ok vpath =>
    cases bestGrant identity (trimSlashes rawPath) grants none <;> rfl

theorem check_of_all_allow (hpath : pathOf op rawPath = .ok vpath)
    (hne : longest grants identity rawPath ≠ [])
    (hall : ∀ g ∈ longest grants identity rawPath,
      allows g.permissions op = true) :
    check ⟨grants⟩ identity op rawPath = .ok vpath := by
  rw [check_eq, hpath]
  cases hb : bestGrant identity (trimSlashes rawPath) grants none with
  | none => exact absurd (bestGrant_eq_none_iff.mp hb) hne
  | some m =>
    obtain ⟨g, n⟩ := m
    exact if_pos (hall g (bestGrant_mem_longest hb))

theorem check_of_all_deny (hpath : pathOf op rawPath = .ok vpath)
    (hall : ∀ g ∈ longest grants identity rawPath,
      allows g.permissions op = false) :
    check ⟨grants⟩ identity op rawPath = .error .permissionDenied := by
  rw [check_eq, hpath]
  cases hb : bestGrant identity (trimSlashes rawPath) grants none with
  | none => rfl
  | some m =>
    obtain ⟨g, n⟩ := m
    exact if_neg (by simp [hall g (bestGrant_mem_longest hb)])

theorem exists_perm_check (hpath : pathOf op rawPath = .ok vpath)
    (hg : g ∈ longest grants identity rawPath) :
    ∃ grants' : List Grant, grants'.Perm grants ∧
      check ⟨grants'⟩ identity op rawPath =
        if allows g.permissions op then .ok vpath else .error .permissionDenied := by
  obtain ⟨⟨hmem, -⟩, -⟩ := mem_longest.mp hg
  have hperm : (g :: grants.erase g).Perm grants := (perm_cons_erase hmem).symm
  refine ⟨_, hperm, ?_⟩
  rw [check_eq, hpath, bestGrant_cons_of_longest ((mem_longest_of_perm hperm).mpr hg)]

theorem trimSlashes_eq_self {s : String} (hhead : s.toList.head? ≠ some '/')
    (hlast : s.toList.getLast? ≠ some '/') : trimSlashes s = s.toList := by
  have hdrop : ∀ l : List Char, l.head? ≠ some '/' → l.dropWhile (· = '/') = l := by
    intro l hl
    cases l with
    | nil => rfl
    | cons c l =>
      have hc : c ≠ '/' := fun he => hl (by simp [he])
      simp [hc]
  unfold trimSlashes
  rw [hdrop _ hhead, hdrop _ (by rwa [List.head?_reverse]), reverse_reverse]

theorem pathOf_eq_ok_iff (hne : rawPath ≠ "") (htrim : trimSlashes rawPath = rawPath.toList) :
    pathOf op rawPath = .ok vpath ↔ VPath.validate rawPath = .ok vpath := by
  have hlist : rawPath.toList ≠ [] := fun hnil => hne (String.toList_eq_nil_iff.mp hnil)
  unfold pathOf
  rw [htrim]
  rw [if_neg hlist, String.ofList_toList]
  cases VPath.validate rawPath <;> simp

theorem trimmed_of_validate (h : VPath.validate rawPath = .ok vpath) :
    rawPath ≠ "" ∧ trimSlashes rawPath = rawPath.toList := by
  unfold VPath.validate at h
  split_ifs at h with h1 h2 h3 h4 h5
  refine ⟨h1, trimSlashes_eq_self h3 fun hl => ?_⟩
  cases hn : Storage.normalise 0 [] (rawPath.toList.splitOn '/') with
  | error e =>
    rw [hn] at h
    cases h
  | ok normalised =>
    rw [hn] at h
    dsimp only at h
    rw [if_pos (.inr hl)] at h
    cases h

theorem allows_of_has {perms : PermSet} (h : perms.has (requiredPerm op) = true) :
    allows perms op = true := by
  unfold allows
  split_ifs with hop
  · subst hop
    have hs : perms.has .syncDelete = true := h
    rw [hs, Bool.true_or]
  · exact h

theorem has_of_allows {perms : PermSet} (h : allows perms op = true)
    (hop : op ≠ .syncDelete) : perms.has (requiredPerm op) = true := by
  unfold allows at h
  rwa [if_neg hop] at h

end Loop

/-! ## The contract -/

section Contract

variable {a : FileAuthorizer} {identity : Identity} {op : Op} {rawPath : String}

theorem boundaries (grantPrefix rawPath : String) :
    (prefixMatchLen grantPrefix (trimSlashes rawPath)).isSome = true ↔
      components grantPrefix <+: components rawPath := by
  rw [prefixMatchLen_eq]
  split_ifs with h <;> simp [h]

theorem unambiguous_of_followsLongest (h : FollowsLongest a identity op rawPath) :
    Unambiguous a identity op rawPath := by
  cases hpath : pathOf op rawPath with
  | error e =>
    left
    rw [hpath]
    rfl
  | ok vpath =>
    right
    by_cases hdeny : ∀ g ∈ longest a.grants identity rawPath,
        allows g.permissions op = false
    · exact .inl hdeny
    · right
      push Not at hdeny
      obtain ⟨g, hg, hallow⟩ := hdeny
      have hgrant : allows g.permissions op = true := by simpa using hallow
      -- the grant that allows it may come first, so every order has to allow it
      have hok : a.check identity op rawPath = .ok vpath := by
        obtain ⟨grants', hperm, hcheck⟩ := exists_perm_check hpath hg
        rw [← h.anyOrder grants' hperm, hcheck, if_pos hgrant]
      have hall : ∀ g' ∈ longest a.grants identity rawPath,
          allows g'.permissions op = true := by
        intro g' hg'
        obtain ⟨grants', hperm, hcheck⟩ := exists_perm_check hpath hg'
        rw [h.anyOrder grants' hperm, hok] at hcheck
        by_contra hno
        rw [if_neg hno] at hcheck
        cases hcheck
      obtain ⟨hvalid, -, g', hg', hhas⟩ := (h.decides vpath).mp hok
      obtain ⟨hne, htrim⟩ := trimmed_of_validate hvalid
      refine ⟨hall, hne, htrim, ?_⟩
      rintro rfl
      exact ⟨g', hg', hhas⟩

theorem followsLongest_of_check {result : Except ProtocolError VPath}
    (hcheck : ∀ grants', grants'.Perm grants → check ⟨grants'⟩ identity op rawPath = result)
    (hdecides : ∀ vpath, result = .ok vpath ↔ Permitted grants identity op rawPath vpath) :
    FollowsLongest ⟨grants⟩ identity op rawPath := by
  have hself : check ⟨grants⟩ identity op rawPath = result := hcheck grants (List.Perm.refl _)
  refine ⟨fun vpath => ?_, fun grants' hperm => ?_, fun g _ => boundaries _ _⟩
  · rw [hself]
    exact hdecides vpath
  · rw [hself, hcheck grants' hperm]

theorem followsLongest_of_all_deny (hpath : pathOf op rawPath = .ok vpath)
    (hdeny : ∀ g ∈ longest grants identity rawPath, allows g.permissions op = false) :
    FollowsLongest ⟨grants⟩ identity op rawPath := by
  refine followsLongest_of_check (fun grants' hperm => check_of_all_deny hpath fun g hg =>
    hdeny g ((mem_longest_of_perm hperm).mp hg)) fun v => iff_of_false nofun ?_
  rintro ⟨-, -, g, hg, hhas⟩
  have hallow := allows_of_has hhas
  rw [hdeny g hg] at hallow
  cases hallow

theorem followsLongest_of_all_allow (hpath : pathOf op rawPath = .ok vpath)
    (hall : ∀ g ∈ longest grants identity rawPath, allows g.permissions op = true)
    (hvalid : VPath.validate rawPath = .ok vpath)
    (hsync : op = .syncDelete → ∃ g ∈ longest grants identity rawPath,
      g.permissions.has .syncDelete = true)
    (hg : g ∈ longest grants identity rawPath) : FollowsLongest ⟨grants⟩ identity op rawPath := by
  refine followsLongest_of_check (fun grants' hperm => check_of_all_allow hpath
    (ne_nil_of_mem ((mem_longest_of_perm hperm).mpr hg)) fun g' hg' =>
      hall g' ((mem_longest_of_perm hperm).mp hg')) fun v => ⟨?_, ?_⟩
  · rintro ⟨⟩
    refine ⟨hvalid, ⟨g, (mem_longest.mp hg).1⟩, ?_⟩
    by_cases hop : op = .syncDelete
    · subst hop
      exact hsync rfl
    · exact ⟨g, hg, has_of_allows (hall g hg) hop⟩
  · rintro ⟨hv, -⟩
    rw [Except.ok.inj (hvalid.symm.trans hv)]

theorem followsLongest_of_unambiguous (h : Unambiguous a identity op rawPath) :
    FollowsLongest a identity op rawPath := by
  obtain ⟨grants⟩ := a
  cases hpath : pathOf op rawPath with
  | error e =>
    -- not a path: the grants are not looked at
    have hcheck : ∀ grants', check ⟨grants'⟩ identity op rawPath = .error e := by
      intro grants'
      rw [check_eq, hpath]
    refine followsLongest_of_check (fun grants' _ => hcheck grants') fun v => iff_of_false nofun ?_
    rintro ⟨hvalid, -⟩
    obtain ⟨hne, htrim⟩ := trimmed_of_validate hvalid
    rw [(pathOf_eq_ok_iff hne htrim).mpr hvalid] at hpath
    cases hpath
  | ok vpath =>
    rw [Unambiguous, hpath] at h
    rcases h with hnone | hdeny | ⟨hall, hne, htrim, hsync⟩
    · cases hnone
    · exact followsLongest_of_all_deny hpath hdeny
    · cases hlongest : longest grants identity rawPath with
      | nil => exact followsLongest_of_all_deny hpath (by simp [hlongest])
      | cons g rest =>
        exact followsLongest_of_all_allow hpath hall ((pathOf_eq_ok_iff hne htrim).mp hpath) hsync
          (g := g) (by simp [hlongest])

/-- **The check follows the longest grant exactly when the longest grants agree.** -/
theorem followsLongest_iff (a : FileAuthorizer) (identity : Identity) (op : Op)
    (rawPath : String) : FollowsLongest a identity op rawPath ↔ Unambiguous a identity op rawPath :=
  ⟨unambiguous_of_followsLongest, followsLongest_of_unambiguous⟩

def twoGrants : List Grant := [⟨"alice", "data", ⟨0x02⟩⟩, ⟨"alice", "data", ⟨0x01⟩⟩]

/-- The order of two grants with one prefix decides whether an upload is allowed. -/
theorem not_followsLongest_twoGrants :
    check ⟨twoGrants⟩ ⟨"alice", "", "", ""⟩ .upload "data/a" =
      .error .permissionDenied ∧
    check ⟨twoGrants.reverse⟩ ⟨"alice", "", "", ""⟩ .upload "data/a" =
      .ok ⟨"data/a"⟩ ∧
    ¬ FollowsLongest ⟨twoGrants⟩ ⟨"alice", "", "", ""⟩ .upload "data/a" := by
  have hdenied : check ⟨twoGrants⟩ ⟨"alice", "", "", ""⟩ .upload "data/a" =
      .error .permissionDenied := by decide
  have hallowed : check ⟨twoGrants.reverse⟩ ⟨"alice", "", "", ""⟩ .upload "data/a" =
      .ok ⟨"data/a"⟩ := by decide
  refine ⟨hdenied, hallowed, ?_⟩
  intro h
  have heq := h.anyOrder twoGrants.reverse (reverse_perm _)
  cases heq

end Contract

end Velcrux.Auth
