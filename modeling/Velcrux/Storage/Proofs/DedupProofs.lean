import Velcrux.Storage.Dedup

/-!
# Isolation of deduplication namespaces

Under the isolated policy a call reads and writes one namespace, the one of the sanitized identity of
its tenant. So two tenants are isolated from each other exactly when the sanitizer keeps their names
apart.
-/

namespace Velcrux.Storage

open Sync ByteFile List

variable {tenantId t u : String}

section Names

variable (tables : CharTables)

theorem isKept_of_isWhitespace {c : Char} (hc : tables.isWhitespace c = true) :
    tables.isKept c = false := by
  -- the three signs kept besides letters and digits are ASCII, and no white space
  have hsign : ∀ d : Char, d.toNat < 128 → decide (d = ' ' ∨ 9 ≤ d.toNat ∧ d.toNat ≤ 13) = false →
      (c == d) = false := by
    intro d hd hws
    rw [← tables.isWhitespace_ascii d hd] at hws
    refine beq_eq_false_iff_ne.2 fun hcd => ?_
    rw [hcd, hws] at hc
    cases hc
  simp [CharTables.isKept, tables.disjoint c hc, hsign '-' (by decide) (by decide),
    hsign '_' (by decide) (by decide), hsign '.' (by decide) (by decide)]

theorem filter_isKept_dropWhile (l : List Char) :
    (l.dropWhile tables.isWhitespace).filter tables.isKept = l.filter tables.isKept := by
  have hdropped : (l.takeWhile tables.isWhitespace).filter tables.isKept = [] := by
    refine filter_eq_nil_iff.2 fun c hc => ?_
    simp [isKept_of_isWhitespace tables (mem_takeWhile_imp hc)]
  conv_rhs => rw [← takeWhile_append_dropWhile (p := tables.isWhitespace) (l := l)]
  rw [filter_append, hdropped, nil_append]

theorem filter_isKept_trim (l : List Char) :
    (tables.trim l).filter tables.isKept = l.filter tables.isKept := by
  rw [CharTables.trim, filter_reverse, filter_isKept_dropWhile, filter_reverse,
    reverse_reverse, filter_isKept_dropWhile]

theorem sanitizeTenantId_eq (tenantId : String) :
    sanitizeTenantId tables tenantId = keptName tables tenantId := by
  have htrim := filter_isKept_trim tables tenantId.toList
  unfold sanitizeTenantId keptName
  by_cases hempty : tables.trim tenantId.toList = []
  · simp [hempty, ← htrim]
  · simp only [hempty, if_false, htrim]

end Names

namespace NamespacedChunkStore

variable {env : DedupEnv} {s s' : NamespacedChunkStore} {name : String}

def SameNamespace (name : String) (s s' : NamespacedChunkStore) : Prop :=
  s.tenantDirs name = s'.tenantDirs name ∧ s.tenantBlooms name = s'.tenantBlooms name

def Confined (name : String) (s s' : NamespacedChunkStore) : Prop :=
  s'.policy = s.policy ∧ ∀ other ≠ name, SameNamespace other s' s

theorem Confined.refl (name : String) (s : NamespacedChunkStore) : Confined name s s :=
  ⟨rfl, fun _ _ => ⟨rfl, rfl⟩⟩

theorem Confined.countPoison (h : Confined name s s') : Confined name s s'.countPoison := h

theorem Confined.countProbe (h : Confined name s s') : Confined name s s'.countProbe := h

theorem confined_setStore (store : LocalChunkStore) :
    Confined name s (s.setStore store (.tenant name)) := by
  refine ⟨rfl, fun other hother => ?_⟩
  simp [SameNamespace, setStore, hother]

variable (fate : DiskFate)

theorem confined_quarantine (h : Hash) : Confined name s (s.quarantine fate (.tenant name) h) := by
  unfold quarantine
  split_ifs
  · exact .refl name s
  · refine ⟨rfl, fun other hother => ?_⟩
    simp [SameNamespace, hother]

theorem sameNamespace_setStore (store : LocalChunkStore) :
    SameNamespace name (s.setStore store (.tenant name)) (s'.setStore store (.tenant name)) := by
  simp [SameNamespace, setStore]

theorem sameNamespace_quarantine (hs : SameNamespace name s s') (fate : DiskFate) (h : Hash) :
    SameNamespace name (s.quarantine fate (.tenant name) h)
      (s'.quarantine fate (.tenant name) h) := by
  unfold quarantine
  split_ifs
  · exact hs
  · exact ⟨by simp [hs.1], hs.2⟩

theorem SameNamespace.cachedStore_eq (hs : SameNamespace name s s') :
    s.cachedStore name = s'.cachedStore name := by
  simp [cachedStore, hs.1, hs.2]

theorem getTenantStore_isolated (env : DedupEnv) (hp : s.policy = .isolated) (fate : DiskFate)
    (tenantId : String) :
    s.getTenantStore env fate tenantId = .error .io ∨
      ∃ store, s.getTenantStore env fate tenantId =
        .ok (.tenant (sanitizeTenantId env.tables tenantId), store) := by
  unfold getTenantStore
  simp only [hp, ne_eq, not_true, if_false]
  split
  · exact .inr ⟨_, rfl⟩
  · split_ifs
    · exact .inl rfl
    · exact .inr ⟨_, rfl⟩

theorem getTenantStore_congr (hp : s.policy = .isolated) (hp' : s'.policy = .isolated) (hs : SameNamespace (sanitizeTenantId env.tables tenantId) s s')
    (fate : DiskFate) : s.getTenantStore env fate tenantId = s'.getTenantStore env fate tenantId := by
  simp only [getTenantStore, hp, hp', hs.cachedStore_eq, hs.1, ne_eq, not_true, if_false]

/-- What a call of `tenantId` on an isolated store can do: it answers and updates its namespace by
what that namespace holds, and leaves the others as they are. -/
structure Local {ρ : Type} (env : DedupEnv) (tenantId : String)
    (call : NamespacedChunkStore → NamespacedChunkStore × ρ) : Prop where
  confined : ∀ s, s.policy = .isolated →
    Confined (sanitizeTenantId env.tables tenantId) s (call s).1
  same : ∀ s s', s.policy = .isolated → s'.policy = .isolated →
    SameNamespace (sanitizeTenantId env.tables tenantId) s s' →
    SameNamespace (sanitizeTenantId env.tables tenantId) (call s).1 (call s').1 ∧
      (call s).2 = (call s').2

theorem local_of_store {ρ : Type}
    {call : NamespacedChunkStore → NamespacedChunkStore × ρ} (fate : DiskFate) (failed : ρ)
    (op : LocalChunkStore → LocalChunkStore × ρ)
    (herr : ∀ s, s.policy = .isolated → s.getTenantStore env fate tenantId = .error .io →
      call s = (s, failed))
    (hok : ∀ s ref store, s.policy = .isolated →
      s.getTenantStore env fate tenantId = .ok (ref, store) →
      call s = (s.setStore (op store).1 ref, (op store).2)) : Local env tenantId call where
  confined s hp := by
    rcases getTenantStore_isolated env hp fate tenantId with h | ⟨store, h⟩
    · rw [herr s hp h]
      exact .refl _ s
    · rw [hok s _ _ hp h]
      exact confined_setStore _
  same s s' hp hp' hs := by
    have hget := getTenantStore_congr hp hp' hs fate
    rcases getTenantStore_isolated env hp fate tenantId with h | ⟨store, h⟩
    · rw [herr s hp h, herr s' hp' (hget ▸ h)]
      exact ⟨hs, rfl⟩
    · rw [hok s _ _ hp h, hok s' _ _ hp' (hget ▸ h)]
      exact ⟨sameNamespace_setStore _, rfl⟩

theorem local_bloomFilter (tenantId : String) :
    Local env tenantId fun s => s.bloomFilterForTenant env fate tenantId := by
  refine local_of_store fate (.error .io) (fun store => (store, .ok store.bloom)) ?_ ?_
  · intro s hp h
    simp [bloomFilterForTenant, hp, h]
  · intro s ref store hp h
    simp [bloomFilterForTenant, hp, h]

theorem local_ingest (tenantId : String) (mode : Chunking.ChunkMode)
    (params : Chunking.ChunkParams) (reads : List Bytes) :
    Local env tenantId fun s => s.ingestFileForTenant env fate tenantId mode params reads := by
  refine local_of_store fate (.error (.error .io))
    (fun store =>
      if fate.fails .openFile then (store, .error (.error .io))
      else store.ingestFileSync env.toStoreEnv (fun i => fate.fails (.writeChunk i)) mode params
        reads) ?_ ?_
  · intro s hp h
    simp [ingestFileForTenant, hp, h]
  · intro s ref store hp h
    simp only [ingestFileForTenant, hp, h, ingestInto]
    split_ifs <;> rfl

theorem local_put (tenantId : String) (h : Hash) (data : Bytes) :
    Local env tenantId fun s => s.putForTenant env fate tenantId h data := by
  by_cases hh : env.H data = h
  · refine local_of_store fate (.error .io)
      (fun store => store.put env.toStoreEnv (fate.fails (.writeChunk 0)) h data) ?_ ?_
    · intro s hp hget
      simp [putForTenant, hh, hp, hget]
    · intro s ref store hp hget
      simp [putForTenant, hh, hp, hget]
  · have hput : ∀ s : NamespacedChunkStore, s.putForTenant env fate tenantId h data =
        (s.countPoison, .error (.protocol
          (.malformed "checksum mismatch: rejected corrupted chunk put"))) := by
      simp [putForTenant, hh]
    constructor
    · intro s _
      simp only [hput]
      exact (Confined.refl _ s).countPoison
    · intro s s' _ _ hs
      simp only [hput, and_true]
      exact hs

theorem containsForTenant_isolated (env : DedupEnv) (hp : s.policy = .isolated) (tenantId : String)
    (h : Hash) :
    ((s.containsForTenant env tenantId h).1 = s ∨
      (s.containsForTenant env tenantId h).1 = s.countProbe) ∧
    (s.containsForTenant env tenantId h).2 =
      ((s.cachedStore (sanitizeTenantId env.tables tenantId)).map (·.containsSync h)).getD
        ((s.tenantDirs (sanitizeTenantId env.tables tenantId)).lookup h).isSome := by
  simp only [containsForTenant, hp]
  cases s.cachedStore (sanitizeTenantId env.tables tenantId) with
  | some store => exact ⟨.inl rfl, rfl⟩
  | none =>
    split_ifs with hdir hheld
    · exact ⟨.inl rfl, hdir.symm⟩
    · exact ⟨.inr rfl, by simpa using hdir⟩
    · exact ⟨.inl rfl, by simpa using hdir⟩

theorem local_contains (tenantId : String) (h : Hash) :
    Local env tenantId fun s => s.containsForTenant env tenantId h := by
  constructor
  · intro s hp
    rcases (containsForTenant_isolated env hp tenantId h).1 with h1 | h1
    · simp only [h1]
      exact .refl _ s
    · simp only [h1]
      exact (Confined.refl _ s).countProbe
  · intro s s' hp hp' hs
    obtain ⟨hst, hans⟩ := containsForTenant_isolated env hp tenantId h
    obtain ⟨hst', hans'⟩ := containsForTenant_isolated env hp' tenantId h
    refine ⟨?_, ?_⟩
    · rcases hst with h1 | h1 <;> rcases hst' with h2 | h2 <;> simp only [h1, h2] <;> exact hs
    · simp only [hans, hans', hs.cachedStore_eq, hs.1]

theorem local_copy (tenantId : String) (h : Hash) (dst : Bytes) (dstOffset : ℕ) :
    Local env tenantId fun s => s.copyChunkForTenant env fate tenantId h dst dstOffset := by
  constructor
  · intro s hp
    simp only [copyChunkForTenant, chunkSource, hp, dir]
    split
    · exact .refl _ s
    · split_ifs
      · exact .refl _ s
      · exact (confined_quarantine fate h).countPoison
      · exact (confined_quarantine fate h).countPoison
      · exact .refl _ s
  · intro s s' hp hp' hs
    simp only [copyChunkForTenant, chunkSource, hp, hp', dir, hs.1]
    split
    · exact ⟨hs, rfl⟩
    · split_ifs
      · exact ⟨hs, rfl⟩
      · exact ⟨sameNamespace_quarantine hs fate h, rfl⟩
      · exact ⟨sameNamespace_quarantine hs fate h, rfl⟩
      · exact ⟨hs, rfl⟩

theorem Local.map {ρ ρ' : Type}
    {call : NamespacedChunkStore → NamespacedChunkStore × ρ} (h : Local env tenantId call)
    (f : ρ → ρ') : Local env tenantId fun s => (call s).map id f where
  confined s hp := h.confined s hp
  same s s' hp hp' hs :=
    ⟨(h.same s s' hp hp' hs).1, congrArg f (h.same s s' hp hp' hs).2⟩

theorem local_step (c : String × DedupCall) : Local env c.1 fun s => s.step env c := by
  obtain ⟨tenantId, call⟩ := c
  cases call with
  | put fate h data => exact (local_put fate tenantId h data).map _
  | ingest fate mode params reads => exact (local_ingest fate tenantId mode params reads).map _
  | contains h => exact (local_contains tenantId h).map _
  | copy fate h dst dstOffset => exact (local_copy fate tenantId h dst dstOffset).map fun r => DedupAnswer.copy r.1 r.2
  | bloomFilter fate => exact (local_bloomFilter fate tenantId).map _

def AgreeExcept (name : String) (s s' : NamespacedChunkStore) : Prop :=
  s.policy = .isolated ∧ s'.policy = .isolated ∧ ∀ other ≠ name, SameNamespace other s s'

theorem unwinding (htu : sanitizeTenantId env.tables t ≠ sanitizeTenantId env.tables u) :
    Noninterference.Unwinding (step env) t u (AgreeExcept (sanitizeTenantId env.tables u)) where
  hidden := by
    rintro s s' c rfl ⟨hp, hp', hs⟩
    obtain ⟨hpol, hother⟩ := (local_step c).confined s hp
    refine ⟨hpol.trans hp, hp', fun other hne => ?_⟩
    exact ⟨(hother other hne).1.trans (hs other hne).1, (hother other hne).2.trans (hs other hne).2⟩
  kept := by
    rintro s s' c - ⟨hp, hp', hs⟩
    obtain ⟨hpol, hother⟩ := (local_step c).confined s hp
    obtain ⟨hpol', hother'⟩ := (local_step c).confined s' hp'
    refine ⟨hpol.trans hp, hpol'.trans hp', fun other hne => ?_⟩
    by_cases hc : other = sanitizeTenantId env.tables c.1
    · subst hc
      exact ((local_step c).same s s' hp hp' (hs _ hne)).1
    · obtain ⟨h1, h2⟩ := hother other hc
      obtain ⟨h1', h2'⟩ := hother' other hc
      obtain ⟨h3, h4⟩ := hs other hne
      exact ⟨by rw [h1, h3, h1'], by rw [h2, h4, h2']⟩
  same := by
    rintro s s' c rfl ⟨hp, hp', hs⟩
    exact ((local_step c).same s s' hp hp' (hs _ htu)).2

end NamespacedChunkStore

open NamespacedChunkStore

theorem contains_put_of_sanitize_eq {env : DedupEnv}
    (hname : sanitizeTenantId env.tables t = sanitizeTenantId env.tables u) (data : Bytes) :
    ((((new env .isolated (fun _ => ∅) ∅).putForTenant env .sound u (env.H data) data).1).containsForTenant
      env t (env.H data)).2 = true := by
  set name := sanitizeTenantId env.tables u
  set store := LocalChunkStore.new env.toStoreEnv ∅
  have hput : ((new env .isolated (fun _ => ∅) ∅).putForTenant env .sound u (env.H data) data).1 =
      (new env .isolated (fun _ => ∅) ∅).setStore
        (store.put env.toStoreEnv false (env.H data) data).1 (.tenant name) := by
    simp only [putForTenant, ne_eq, not_true, if_false]
    rfl
  have hfound : (store.put env.toStoreEnv false (env.H data) data).1.containsSync (env.H data) :=
    LocalChunkStore.containsSync_put rfl rfl
  rw [hput, (containsForTenant_isolated env rfl t _).2, hname]
  simpa [cachedStore, setStore] using hfound

/-- A tenant whose name is sanitized to that of another is told of its chunks. -/
theorem not_isolates_of_sanitize_eq {env : DedupEnv} (htu : t ≠ u)
    (hname : sanitizeTenantId env.tables t = sanitizeTenantId env.tables u) :
    ¬ Isolates env t u := by
  intro hiso
  have hview := hiso (fun _ => ∅) ∅ [(u, .put .sound (env.H []) []), (t, .contains (env.H []))]
    [(t, .contains (env.H []))] (by simp [Noninterference.purge, htu])
  -- with the put of `u` the probe of `t` is answered yes, without it no
  have hwith := contains_put_of_sanitize_eq hname []
  have hwithout : ((new env .isolated (fun _ => ∅) ∅).containsForTenant env t (env.H [])).2 =
      false := by
    rw [(containsForTenant_isolated env rfl t _).2]
    rfl
  simp only [Noninterference.view, htu.symm, if_false, if_true, step, Prod.map_snd, Prod.map_fst,
    id_eq, List.cons.injEq, DedupAnswer.contains.injEq, and_true] at hview
  rw [hwith, hwithout] at hview
  cases hview

/-- The isolated policy keeps the calls of one tenant from another exactly when their identities
differ in the characters that directory names are made of. -/
theorem isolates_iff (env : DedupEnv) (t u : String) (htu : t ≠ u) :
    Isolates env t u ↔ keptName env.tables t ≠ keptName env.tables u := by
  simp only [← sanitizeTenantId_eq]
  constructor
  · intro hiso hname
    exact not_isolates_of_sanitize_eq htu hname hiso
  · intro hname tenantDirs shared calls calls' hcalls
    exact (unwinding hname).view_eq htu ⟨rfl, rfl, fun other _ => ⟨rfl, rfl⟩⟩ hcalls

theorem isAlphanum_of_isWhitespace (c : Char)
    (hc : decide (c = ' ' ∨ 9 ≤ c.toNat ∧ c.toNat ≤ 13) = true) : c.isAlphanum = false := by
  rcases of_decide_eq_true hc with rfl | ⟨h1, h2⟩
  · decide
  · have hall : ∀ n < 14, 9 ≤ n → (Char.ofNat n).isAlphanum = false := by decide
    rw [← Char.ofNat_toNat c]
    exact hall _ (by omega) h1

def asciiTables : CharTables where
  isWhitespace c := decide (c = ' ' ∨ 9 ≤ c.toNat ∧ c.toNat ≤ 13)
  isAlphanumeric := Char.isAlphanum
  disjoint := isAlphanum_of_isWhitespace
  isWhitespace_ascii _ _ := rfl
  isAlphanumeric_ascii _ _ := rfl

def asciiEnv : DedupEnv := ⟨⟨fun _ => .zero, fun _ => (64, 1)⟩, asciiTables⟩

theorem isolates_iff_acme_umbra : "acme" ≠ "umbra" ∧
    (Isolates asciiEnv "acme" "umbra" ↔
      keptName asciiEnv.tables "acme" ≠ keptName asciiEnv.tables "umbra") :=
  ⟨by decide, isolates_iff asciiEnv "acme" "umbra" (by decide)⟩

/-- The sanitizer drops the slash, so the tenant `a/b` works in the namespace of the tenant `ab`. -/
theorem not_isolates_slash : "ab" ≠ "a/b" ∧ ¬ Isolates asciiEnv "ab" "a/b" :=
  ⟨by decide, not_isolates_of_sanitize_eq (by decide) (by decide)⟩

end Velcrux.Storage
