import Velcrux.Storage.CasGc

/-!
# A chunk that is put once is collected safely

A pass treats every chunk by itself (`markAndSweep_stored`). The invariant ties each tombstone to
the pass that left it: that pass came at least the nursery grace after the file was written, and no
pass since has found a reference.
-/

namespace Velcrux.Storage

open List Option Function CasStore

variable {env : StoreEnv} {s : CasStore} {refs : Finset Hash} {policy : CasGcPolicy} {now g : ℕ}
  {delay : Hash → ℕ} {x : Hash} {data : Bytes} {listing : List Hash} {w w' : CasWorld}
  {h : List (CasWorld × CasEvent)} {p q : ℕ → Prop}

/-! ## One pass -/

namespace CasStore

def pair (s : CasStore) (x : Hash) : Option Bytes × Option CasTombstone := (s.chunk x, s.tombstones x)

def swept (refs : Finset Hash) (policy : CasGcPolicy) (now : ℕ) (delay : Hash → ℕ) (x : Hash)
    (modified : ℕ) (data : Bytes) : Option CasTombstone → Option Bytes × Option CasTombstone
  | none =>
    if x ∈ refs ∨ now - modified < policy.nurseryGraceSecs ∨ policy.dryRun = true then (some data, none)
    else (some data, some ⟨x, now + delay x, data.length⟩)
  | some t =>
    if policy.dryRun = true then (some data, some t)
    else if x ∈ refs then (some data, none)
    else if policy.purgeExpired = true ∧ t.isExpired policy.tombstoneTtlSecs now = true then (none, none)
    else (some data, some t)

theorem swept_removed {m : ℕ} {tomb : Option CasTombstone}
    (h : (swept refs policy now delay x m data tomb).1 = none) :
    ∃ t, tomb = some t ∧ x ∉ refs ∧ policy.tombstoneTtlSecs ≤ now - t.tombstonedAtSecs := by
  cases tomb with
  | none =>
    rw [swept] at h
    split_ifs at h
  | some t =>
    rw [swept] at h
    split_ifs at h with hdry href hold
    exact ⟨t, rfl, href, by simpa [CasTombstone.isExpired] using hold.2⟩

theorem swept_buried {m : ℕ} {tomb : Option CasTombstone} {t : CasTombstone}
    (h : (swept refs policy now delay x m data tomb).2 = some t) :
    (swept refs policy now delay x m data tomb).1 = some data ∧
      (tomb = some t ∧ (x ∈ refs → policy.dryRun = true) ∨
        x ∉ refs ∧ policy.nurseryGraceSecs ≤ now - m ∧ now ≤ t.tombstonedAtSecs) := by
  cases tomb with
  | none =>
    rw [swept] at h ⊢
    split_ifs at h ⊢ with hkeep
    obtain rfl := some.inj h
    push Not at hkeep
    exact ⟨rfl, .inr ⟨hkeep.1, hkeep.2.1, Nat.le_add_right _ _⟩⟩
  | some t' =>
    rw [swept] at h ⊢
    split_ifs at h ⊢ with hdry href
    · exact ⟨rfl, .inl ⟨h, fun _ => hdry⟩⟩
    · exact ⟨rfl, .inl ⟨h, fun hx => absurd hx href⟩⟩

theorem pair_resurrect (y : Hash) : (s.resurrect y).pair x =
    if y = x ∧ (s.chunk x).isSome then (s.chunk x, none) else s.pair x := by
  unfold resurrect
  by_cases hyx : y = x
  · subst hyx
    cases htomb : s.tombstones y <;> cases hchunk : s.chunk y <;> simp_all [pair, chunk]
  · have hother : ¬ (y = x ∧ (s.chunk x).isSome = true) := fun h => hyx h.1
    split_ifs
    · simp [pair, chunk, Ne.symm hyx]
    · rfl

theorem pair_purge (y : Hash) : (s.purge y).pair x = if y = x then (none, none) else s.pair x := by
  by_cases hyx : y = x
  · simp [pair, chunk, purge, hyx]
  · simp [pair, chunk, purge, hyx, Ne.symm hyx]

theorem pair_bury (y : Hash) (t : CasTombstone) :
    (s.bury y t).pair x = if y = x then (s.chunk x, some t) else s.pair x := by
  by_cases hyx : y = x
  · simp [pair, chunk, bury, hyx]
  · simp [pair, chunk, bury, hyx, Ne.symm hyx]

theorem pair_sweepEntry_of_ne {e : CasChunkEntry} (hne : e.hash ≠ x)
    (y : CasStore × CasGenerationalGcReport) :
    (sweepEntry refs policy now delay y e).1.pair x = y.1.pair x := by
  unfold sweepEntry
  repeat' split
  all_goals simp [pair_resurrect, pair_purge, pair_bury, hne]

theorem modified_sweepEntry (y : CasStore × CasGenerationalGcReport) (e : CasChunkEntry) :
    (sweepEntry refs policy now delay y e).1.modified = y.1.modified := by
  unfold sweepEntry resurrect
  repeat' split
  all_goals rfl

theorem pair_sweepEntry_self {y : CasStore × CasGenerationalGcReport} {e : CasChunkEntry}
    (hpair : y.1.pair x = s.pair x) (hdata : s.chunk x = some data)
    (he : s.scanChunk now policy.nurseryGraceSecs x = some e) :
    (sweepEntry refs policy now delay y e).1.pair x =
      swept refs policy now delay x (s.modified x) data (s.tombstones x) := by
  obtain ⟨s', r⟩ := y
  rw [pair, pair, hdata] at hpair
  simp only [scanChunk, hdata, map_some, Option.some.injEq] at he
  subst he
  unfold sweepEntry
  have hpair' : s'.pair x = (some data, s.tombstones x) := hpair
  have hchunk : s'.chunk x = some data := (Prod.mk.inj hpair').1
  cases ht : s.tombstones x with
  | none =>
    rw [ht] at hpair'
    by_cases hx : x ∈ refs <;> by_cases hage : now - s.modified x < policy.nurseryGraceSecs <;>
      cases hdry : policy.dryRun <;> simp [swept, hx, hage, hdry, hpair', pair_bury, hchunk]
  | some t =>
    rw [ht] at hpair'
    by_cases hx : x ∈ refs <;> cases hdry : policy.dryRun <;>
      by_cases hold : policy.purgeExpired = true ∧ t.isExpired policy.tombstoneTtlSecs now = true <;>
      simp [swept, hx, hdry, hold, hpair', pair_purge, pair_resurrect, hchunk]

theorem pair_foldl_of_notMem (hx : x ∉ listing) (y : CasStore × CasGenerationalGcReport) :
    ((listing.filterMap (s.scanChunk now policy.nurseryGraceSecs)).foldl
      (sweepEntry refs policy now delay) y).1.pair x = y.1.pair x := by
  refine List.foldlRecOn (motive := fun z : CasStore × _ => z.1.pair x = y.1.pair x) _ _ rfl fun z hz e he => ?_
  obtain ⟨k, hk, hscan⟩ := mem_filterMap.mp he
  obtain ⟨data, -, rfl⟩ := map_eq_some_iff.mp hscan
  exact (pair_sweepEntry_of_ne (fun heq : k = x => hx (heq ▸ hk)) z).trans hz

theorem modified_markAndSweep : (s.markAndSweep refs policy now delay listing).1.modified = s.modified :=
  List.foldlRecOn (motive := fun z : CasStore × _ => z.1.modified = s.modified) _ _ rfl fun z hz e _ => by
    rw [modified_sweepEntry, hz]

theorem markAndSweep_stored (hperm : listing.Perm s.store.chunks.keys) (hdata : s.chunk x = some data) :
    (s.markAndSweep refs policy now delay listing).1.pair x =
      swept refs policy now delay x (s.modified x) data (s.tombstones x) := by
  have hmem : x ∈ listing := hperm.mem_iff.mpr (AList.mem_keys.mpr (AList.lookup_isSome.mp (by
    rw [show s.store.chunks.lookup x = some data from hdata]; rfl)))
  have hnodup : listing.Nodup := hperm.nodup_iff.mpr s.store.chunks.nodupKeys
  obtain ⟨l, r, rfl⟩ := append_of_mem hmem
  obtain ⟨-, hr, hdisj⟩ := nodup_append.mp hnodup
  have hl : x ∉ l := fun hx => hdisj x hx x mem_cons_self rfl
  obtain ⟨e, he⟩ : ∃ e, s.scanChunk now policy.nurseryGraceSecs x = some e := by
    rw [scanChunk, hdata]
    exact ⟨_, rfl⟩
  rw [markAndSweep, filterMap_append, filterMap_cons_some he, foldl_append, foldl_cons,
    pair_foldl_of_notMem (nodup_cons.mp hr).1]
  exact pair_sweepEntry_self (pair_foldl_of_notMem hl _) hdata he

end CasStore

/-- **What a pass does to a digest**, stored or not. -/
theorem CasStore.markAndSweep_cases (refs : Finset Hash) (policy : CasGcPolicy) (now : ℕ) (delay : Hash → ℕ)
    (hperm : listing.Perm s.store.chunks.keys) (x : Hash) :
    (s.chunk x = none ∧ (s.markAndSweep refs policy now delay listing).1.pair x = s.pair x) ∨
      ∃ data, s.chunk x = some data ∧ (s.markAndSweep refs policy now delay listing).1.pair x =
        swept refs policy now delay x (s.modified x) data (s.tombstones x) := by
  cases hdata : s.chunk x with
  | none =>
    have hx : x ∉ listing := fun hx => AList.lookup_eq_none.mp hdata (hperm.mem_iff.mp hx)
    exact .inl ⟨rfl, pair_foldl_of_notMem hx _⟩
  | some data => exact .inr ⟨data, rfl, markAndSweep_stored hperm hdata⟩

/-! ## Runs -/

theorem Unreferenced.imp (hun : Unreferenced x p h) (himp : ∀ v, p v → q v) : Unreferenced x q h := by
  obtain ⟨later, w, refs, policy, delay, listing, v, earlier, heq, hp, hrest⟩ := hun
  exact ⟨later, w, refs, policy, delay, listing, v, earlier, heq, himp v hp, hrest⟩

theorem Unreferenced.cons {y : CasWorld × CasEvent} (hun : Unreferenced x p h)
    (hy : ∀ refs policy delay listing now, y.2 = .sweep refs policy delay listing now → x ∉ refs) :
    Unreferenced x p (y :: h) := by
  obtain ⟨later, w, refs, policy, delay, listing, v, earlier, rfl, hp, hx, hlater⟩ := hun
  exact ⟨y :: later, w, refs, policy, delay, listing, v, earlier, rfl, hp, hx,
    forall_mem_cons.mpr ⟨hy, hlater⟩⟩

/-- What the runs keep: files and puts are of the past, a file is no older than the puts of its chunk, and a
tombstone comes from a pass that found the file old enough. -/
structure CasInv (env : StoreEnv) (g : ℕ) (h : List (CasWorld × CasEvent)) (w : CasWorld) : Prop where
  age : ∀ x, w.store.modified x ≤ w.clock
  puts : ∀ w1 fails x data t, (w1, .put fails x data t) ∈ h →
    (w1.store.put env fails x data t).2 = .ok () →
    t ≤ w.clock ∧ ((w.store.chunk x).isSome → t ≤ w.store.modified x)
  buried : ∀ x t, w.store.tombstones x = some t → (w.store.chunk x).isSome ∧
    Unreferenced x (fun v => v ≤ t.tombstonedAtSecs ∧ v ≤ w.clock ∧ w.store.modified x + g ≤ v) h

theorem CasStore.chunk_put (s : CasStore) (env : StoreEnv) (fails : Bool) (data : Bytes) (now : ℕ) {y : Hash}
    (hne : y ≠ x) : (s.put env fails y data now).1.chunk x = s.chunk x := by
  unfold put LocalChunkStore.put chunk
  split_ifs <;> simp [AList.lookup_insert_ne hne.symm]

theorem CasInv.put {fails : Bool} (hinv : CasInv env g h w) (hnew : w.store.chunk x = none)
    (hle : w.clock ≤ now) :
    CasInv env g ((w, .put fails x data now) :: h) ⟨(w.store.put env fails x data now).1, now⟩ := by
  have hmodified : (w.store.put env fails x data now).1.modified = Function.update w.store.modified x now :=
    if_neg (by simp [hnew])
  have hother : ∀ y, x ≠ y → (w.store.put env fails x data now).1.modified y = w.store.modified y :=
    fun y hne => by rw [hmodified, update_of_ne hne.symm]
  refine ⟨fun y => ?_, fun w1 fails1 y data1 t hmem hput => ?_, fun y t ht => ?_⟩
  · rw [hmodified, update_apply]
    split_ifs
    · exact le_rfl
    · exact (hinv.age y).trans hle
  · rcases mem_cons.mp hmem with heq | hmem
    · cases (Prod.mk.inj heq).2
      exact ⟨le_rfl, fun _ => by rw [hmodified, update_self]⟩
    · obtain ⟨hpast, hwritten⟩ := hinv.puts _ _ _ _ _ hmem hput
      refine ⟨hpast.trans hle, fun hy => ?_⟩
      by_cases hxy : x = y
      · -- a file that is written now is newer than everything that happened
        rw [hmodified, hxy, update_self]
        exact hpast.trans hle
      · rw [hother y hxy]
        exact hwritten (by rwa [← w.store.chunk_put env fails data now hxy])
  · obtain ⟨hstored, hun⟩ := hinv.buried y t ht
    have hxy : x ≠ y := by
      rintro rfl
      exact absurd hstored (by simp [hnew])
    rw [w.store.chunk_put env fails data now hxy, hother y hxy]
    refine ⟨hstored, (hun.cons fun _ _ _ _ _ heq => absurd heq (by simp)).imp fun v hv => ?_⟩
    exact ⟨hv.1, hv.2.1.trans hle, hv.2.2⟩

theorem CasInv.sweep (hinv : CasInv env g h w)
    (hok : PutOnce g w (.sweep refs policy delay listing now)) (hle : w.clock ≤ now)
    (hperm : listing.Perm w.store.store.chunks.keys) :
    CasInv env g ((w, .sweep refs policy delay listing now) :: h)
      ⟨(w.store.markAndSweep refs policy now delay listing).1, now⟩ where
  age x := by
    rw [modified_markAndSweep]
    exact (hinv.age x).trans hle
  puts w1 fails x data t hmem hput := by
    rcases mem_cons.mp hmem with heq | hmem
    · exact absurd (Prod.mk.inj heq).2 (by simp)
    obtain ⟨hpast, hwritten⟩ := hinv.puts _ _ _ _ _ hmem hput
    rw [modified_markAndSweep]
    refine ⟨hpast.trans hle, fun hx => hwritten ?_⟩
    rcases markAndSweep_cases refs policy now delay hperm x with ⟨-, hpair⟩ | ⟨data', hdata, -⟩
    · rwa [← (Prod.mk.inj hpair).1]
    · rw [hdata]
      rfl
  buried x t ht := by
    rw [modified_markAndSweep]
    rcases markAndSweep_cases refs policy now delay hperm x with ⟨hnone, hpair⟩ | ⟨data, hdata, hpair⟩
    · rw [(Prod.mk.inj hpair).2] at ht
      exact absurd (hinv.buried x t ht).1 (by simp [hnone])
    · obtain ⟨hkept, hcases⟩ := swept_buried ((congrArg Prod.snd hpair).symm.trans ht)
      have hchunk := (congrArg Prod.fst hpair).trans hkept
      refine ⟨isSome_iff_exists.mpr ⟨data, hchunk⟩, ?_⟩
      rcases hcases with ⟨hold, hdry⟩ | ⟨hx, hage, hstamp⟩
      · -- the tombstone stays, so this pass has found no reference either
        have hx : x ∉ refs := fun hx => by
          rw [hok.2 (hdry hx) x hx] at hold
          cases hold
        refine ((hinv.buried x t hold).2.cons fun _ _ _ _ _ heq => ?_).imp fun v hv => ?_
        · cases heq
          exact hx
        · exact ⟨hv.1, hv.2.1.trans hle, hv.2.2⟩
      · have hage' : w.store.modified x + g ≤ now := by
          have hgrace := hok.1
          have hwritten := (hinv.age x).trans hle
          omega
        exact ⟨[], w, refs, policy, delay, listing, now, h, rfl, ⟨hstamp, le_rfl, hage'⟩, hx, by simp⟩

/-- In every run in which chunks are put once, everything that a pass removes may be removed. -/
theorem collectsSafely_of_putOnce {e : CasEvent} (hrun : CasRun env (PutOnce g) h w) (hok : PutOnce g w e)
    (hstep : w.step env e = some w') : CollectsSafely env h w w' e := by
  have hinv : CasInv env g h w := by
    refine Transition.Run.invariant ?_ ?_ hrun
    · rintro w rfl
      exact ⟨fun _ => le_rfl, by simp, by simp⟩
    · intro h w e w' _ hinv hok hstep
      cases e with
      | put fails x data now =>
        rw [CasWorld.step] at hstep
        split_ifs at hstep with hle
        obtain rfl := some.inj hstep
        exact hinv.put hok hle
      | sweep refs policy delay listing now =>
        rw [CasWorld.step] at hstep
        split_ifs at hstep with hle
        obtain rfl := some.inj hstep
        exact hinv.sweep hok hle.1 hle.2
  cases e with
  | put fails y data now =>
    rw [CasWorld.step] at hstep
    split_ifs at hstep
    obtain rfl := some.inj hstep
    intro x hx
    have hne : y ≠ x := by
      rintro rfl
      rw [show w.store.chunk y = none from hok] at hx
      cases hx
    rwa [w.store.chunk_put env fails data now hne]
  | sweep refs policy delay listing now =>
    rw [CasWorld.step] at hstep
    split_ifs at hstep with hle
    obtain rfl := some.inj hstep
    intro x hx hremoved
    rcases markAndSweep_cases refs policy now delay hle.2 x with ⟨hnone, -⟩ | ⟨data, hdata, hpair⟩
    · exact absurd hx (by simp [hnone])
    · obtain ⟨t, ht, hrefs, hold⟩ :=
        swept_removed ((congrArg Prod.fst hpair).symm.trans hremoved)
      obtain ⟨-, hun⟩ := hinv.buried x t ht
      refine ⟨hrefs, hun.imp fun v hv => ?_, fun w1 fails data t' hmem hput => ?_⟩
      · omega
      · obtain ⟨later, w2, refs2, policy2, delay2, listing2, v, earlier, -, hv, -⟩ := hun
        have hwritten := (hinv.puts w1 fails x data t' hmem hput).2 hx
        have hgrace := hok.1
        omega

def constEnv : StoreEnv := ⟨fun _ => .zero, fun _ => (64, 1)⟩

def twoSeconds : CasGcPolicy := ⟨2, 2, true, false⟩

def unreferencedSweep (now : ℕ) : CasEvent := .sweep ∅ twoSeconds (fun _ => 0) [.zero] now

theorem collectsSafely_twoPasses : ∃ h w w', CasRun constEnv (PutOnce 2) h w ∧
    w.step constEnv (unreferencedSweep 4) = some w' ∧ (w.store.chunk .zero).isSome ∧
    w'.store.chunk .zero = none ∧ CollectsSafely constEnv h w w' (unreferencedSweep 4) := by
  have h0 : CasRun constEnv (PutOnce 2) [] _ := .start rfl
  have h1 := h0.step (e := CasEvent.put false .zero [1] 0) rfl rfl
  have h2 := h1.step (e := unreferencedSweep 2) ⟨rfl, by simp [twoSeconds]⟩ rfl
  exact ⟨_, _, _, h2, rfl, rfl, rfl, collectsSafely_of_putOnce h2 ⟨rfl, by simp [twoSeconds]⟩ rfl⟩

/-- The second put of the chunk finds it with a tombstone, and does nothing. -/
theorem not_collectsSafely_putAgain : ∃ h w w', CasRun constEnv (fun _ _ => True) h w ∧
    w.step constEnv (unreferencedSweep 4) = some w' ∧
    ¬ CollectsSafely constEnv h w w' (unreferencedSweep 4) := by
  have h0 : CasRun constEnv (fun _ _ => True) [] _ := .start rfl
  have h1 := h0.step (e := CasEvent.put false .zero [1] 0) trivial rfl
  have h2 := h1.step (e := unreferencedSweep 2) trivial rfl
  have h3 := h2.step (e := CasEvent.put false .zero [1] 3) trivial rfl
  refine ⟨_, _, _, h3, rfl, fun hsafe => ?_⟩
  obtain ⟨-, -, hrested⟩ := hsafe .zero rfl rfl
  exact absurd (hrested _ false [1] 3 mem_cons_self rfl) (by decide)

end Velcrux.Storage
