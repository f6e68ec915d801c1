import Velcrux.Sync.Replication
import Velcrux.Sync.Proofs.GeoProofs

/-!
# Last-write-wins converges when no counter is reused

A clock covers the versions up to its counters. As long as every write counts on from the region's
last number and its wall clock is past the version it replaces, a version is later than everything
its clock covers (`Latest`).
-/

namespace Velcrux.Sync

open VectorClock GeoReplicationCoordinator Transition List Option Function

variable {path : String} {s : Cluster}

namespace VectorClock

theorem get_foldl_merge_le {r : String} {b : ℕ} (entries : List (String × ℕ)) (c : VectorClock) :
    (entries.foldl (fun acc entry =>
      (⟨acc.clocks.insert entry.1 (max (acc.get entry.1) entry.2)⟩ : VectorClock)) c).get r ≤ b ↔
      c.get r ≤ b ∧ ∀ e ∈ entries, e.1 = r → e.2 ≤ b := by
  induction entries generalizing c with
  | nil => simp
  | cons e entries ih =>
    rw [foldl_cons, ih, forall_mem_cons, ← and_assoc]
    refine and_congr_left fun _ => ?_
    by_cases he : e.1 = r <;> simp [get, SortedMap.get?_insert, he]

theorem get_merge (c d : VectorClock) : (c.merge d).get = c.get ⊔ d.get := by
  funext r
  refine eq_of_forall_ge_iff fun b => ?_
  rw [Pi.sup_apply, sup_le_iff, merge, get_foldl_merge_le]
  refine and_congr_right fun _ => ⟨fun h => ?_, ?_⟩
  · cases hr : d.clocks.get? r with
    | none => simp [get, hr]
    | some v => simpa [get, hr] using h (r, v) (d.clocks.mem_entries_iff.mpr hr) rfl
  · rintro h e he rfl
    simpa [get, d.clocks.mem_entries_iff.mp he] using h

end VectorClock

theorem resolve_cases {c : GeoReplicationCoordinator} (hp : c.policy = .lastWriteWins)
    (held remote : GeoItemMetadata) :
    ((c.resolve (some held) remote).action = .applyRemote ∧
        (held.vectorClock.get ≤ remote.vectorClock.get ∨ held.stamp ≤ remote.stamp)) ∨
      ((c.resolve (some held) remote).action = .keepLocal ∧
        (remote.vectorClock.get ≤ held.vectorClock.get ∨ remote.stamp ≤ held.stamp)) := by
  obtain ⟨g, l, hg, hl, h⟩ := compare_flags held.vectorClock remote.vectorClock
  simp only [resolve, h]
  cases g with
  | false =>
    cases l with
    | false => exact .inr ⟨rfl, .inl (hl.mpr rfl)⟩
    | true => exact .inl ⟨rfl, .inl (hg.mpr rfl)⟩
  | true =>
    cases l with
    | false => exact .inr ⟨rfl, .inl (hl.mpr rfl)⟩
    | true =>
      simp only [resolveConcurrentConflict, hp, GeoItemMetadata.stamp, Prod.Lex.toLex_le_toLex]
      split_ifs with h1 h2 h3
      · exact .inl ⟨rfl, .inr (.inl h1)⟩
      · exact .inr ⟨rfl, .inr (.inl h2)⟩
      · exact .inl ⟨rfl, .inr (.inr ⟨by omega, h3.le⟩)⟩
      · exact .inr ⟨rfl, .inr (.inr ⟨by omega, not_lt.mp h3⟩)⟩

theorem applyRemoteChange_live {c : GeoReplicationCoordinator} (hp : c.policy = .lastWriteWins)
    {change : ReplicationChange} (hlive : c.tombstones change.metadata.relPath = none)
    (hfile : change.metadata.isTombstone = false) :
    let c' := (c.applyRemoteChange change).1
    (c'.localRegion = c.localRegion ∧ c'.policy = c.policy ∧ c'.queue = c.queue ∧
      c'.tombstones change.metadata.relPath = none) ∧
    (c'.ledger change.metadata.relPath = some change.metadata ∧
        (∀ held ∈ c.ledger change.metadata.relPath,
          held.vectorClock.get ≤ change.metadata.vectorClock.get ∨
            held.stamp ≤ change.metadata.stamp) ∨
      ∃ held ∈ c.ledger change.metadata.relPath,
        c'.ledger change.metadata.relPath =
          some (mergeClock change.metadata.vectorClock held) ∧
        (change.metadata.vectorClock.get ≤ held.vectorClock.get ∨
          change.metadata.stamp ≤ held.stamp)) := by
  cases hl : c.ledger change.metadata.relPath with
  | none => simp [applyRemoteChange, localMeta, hl, hlive, resolve, applyAction, hfile]
  | some held =>
    rcases resolve_cases hp held change.metadata with ⟨hact, hwhy⟩ | ⟨hact, hwhy⟩
    · simp [applyRemoteChange, localMeta, hl, hact, applyAction, hfile, hwhy]
    · simp [applyRemoteChange, localMeta, hl, hlive, hact, applyAction, hwhy]

/-! ## Numbered versions -/

def number (m : GeoItemMetadata) : ℕ := m.vectorClock.get m.originRegion

def Covers (clock : VectorClock) (m : GeoItemMetadata) : Prop := number m ≤ clock.get m.originRegion

/-- A version, whose clock may have been merged since: it is one of the recorded ones, it is later
than every recorded one its clock covers, and its clock counts no change that is still to come. -/
structure Version (regions : List String) (next : String → ℕ) (recorded : List GeoItemMetadata)
    (item : GeoItemMetadata) : Prop where
  latest : ∀ m ∈ recorded, Covers item.vectorClock m → m.stamp ≤ item.stamp
  bounded : ∀ r ∈ regions, item.vectorClock.get r < next r
  recorded : ∃ m ∈ recorded, m.stamp = item.stamp ∧ m.hash = item.hash ∧ Covers item.vectorClock m

variable {regions : List String} {next : String → ℕ} {recorded : List GeoItemMetadata}

namespace Version

variable {item other : GeoItemMetadata}

theorem stamp_le_of_clock_le (hitem : Version regions next recorded item)
    (hother : Version regions next recorded other)
    (h : item.vectorClock.get ≤ other.vectorClock.get) : item.stamp ≤ other.stamp := by
  obtain ⟨m, hm, hstamp, -, hcov⟩ := hitem.recorded
  rw [← hstamp]
  exact hother.latest m hm (hcov.trans (h m.originRegion))

theorem mergeClock (hitem : Version regions next recorded item)
    (hother : Version regions next recorded other) (h : other.stamp ≤ item.stamp) :
    Version regions next recorded (mergeClock other.vectorClock item) where
  latest m hm hcov := by
    have hcov' : number m ≤ max (item.vectorClock.get m.originRegion)
        (other.vectorClock.get m.originRegion) := by
      have := hcov
      rwa [Covers, GeoReplicationCoordinator.mergeClock, get_merge] at this
    rcases le_max_iff.mp hcov' with hc | hc
    · exact hitem.latest m hm hc
    · exact (hother.latest m hm hc).trans h
  bounded r hr := by
    rw [GeoReplicationCoordinator.mergeClock, get_merge]
    exact max_lt (hitem.bounded r hr) (hother.bounded r hr)
  recorded := by
    obtain ⟨m, hm, hstamp, hhash, hcov⟩ := hitem.recorded
    refine ⟨m, hm, hstamp, hhash, ?_⟩
    rw [Covers, GeoReplicationCoordinator.mergeClock, get_merge]
    exact le_max_of_le_left hcov

theorem cons (hitem : Version regions next recorded item) {m : GeoItemMetadata}
    (hregion : m.originRegion ∈ regions) (hnumber : next m.originRegion ≤ number m) :
    Version regions (update next m.originRegion (next m.originRegion + 1)) (m :: recorded)
      item where
  latest m' hm' hcov := by
    rcases mem_cons.mp hm' with rfl | hm'
    · have h1 := hitem.bounded _ hregion
      have h2 : number m' ≤ item.vectorClock.get m'.originRegion := hcov
      omega
    · exact hitem.latest m' hm' hcov
  bounded r hr := by
    have h := hitem.bounded r hr
    by_cases hrm : r = m.originRegion
    · subst hrm
      rw [update_self]
      omega
    · rwa [update_of_ne hrm]
  recorded := by
    obtain ⟨m', hm', h⟩ := hitem.recorded
    exact ⟨m', mem_cons_of_mem _ hm', h⟩

end Version

/-! ## The invariant -/

namespace Cluster

def recordedIn (path : String) : List (Cluster × ClusterEvent) → List GeoItemMetadata
  | [] => []
  | (s, .write region nowMs size hash payload) :: h =>
    ((s.node region).recordLocalMutation nowMs path size hash payload).2.metadata ::
      recordedIn path h
  | (_, .deliver _) :: h => recordedIn path h

def nextNumber (s : Cluster) (region : String) : ℕ := (s.node region).queue.nextSeq

structure Orderly (path : String) (recorded : List GeoItemMetadata) (s : Cluster) : Prop where
  nodes : ∀ r ∈ s.regions, (s.node r).localRegion = r ∧ (s.node r).policy = .lastWriteWins ∧
    (s.node r).tombstones path = none ∧ 0 < s.nextNumber r
  files : ∀ m ∈ recorded, m.originRegion ∈ s.regions ∧ m.relPath = path ∧
    m.isTombstone = false ∧ 0 < number m
  versions : ∀ m ∈ recorded, Version s.regions s.nextNumber recorded m
  held : ∀ r ∈ s.regions, ∀ item ∈ (s.node r).ledger path,
    Version s.regions s.nextNumber recorded item
  onTheWay : ∀ x ∈ s.inFlight, x.1 ∈ s.regions ∧ x.2.metadata ∈ recorded
  known : ∀ m ∈ recorded, ∀ r ∈ s.regions, (∃ x ∈ s.inFlight, x.1 = r ∧ x.2.metadata = m) ∨
    ∃ item ∈ (s.node r).ledger path, m.stamp ≤ item.stamp
  distinct : ∀ m ∈ recorded, ∀ m' ∈ recorded, m.stamp = m'.stamp → m.hash = m'.hash

theorem orderly_of_fresh (h : Fresh .lastWriteWins s) : Orderly path [] s := by
  obtain ⟨-, hway, hnew⟩ := h
  refine ⟨fun r hr => ?_, by simp, by simp, fun r hr item hitem => ?_, by simp [hway], by simp,
    by simp⟩
  · rw [nextNumber, hnew r hr]
    exact ⟨rfl, rfl, rfl, Nat.one_pos⟩
  · rw [hnew r hr] at hitem
    cases hitem

variable {recorded : List GeoItemMetadata}

theorem recorded_of_write
    (hs : Orderly path recorded s) {region : String} (hregion : region ∈ s.regions)
    {nowMs size : ℕ} {hash : Hash} {payload : Option Bytes}
    (hok : OrderlyWrite path s (.write region nowMs size hash payload)) :
    let m := ((s.node region).recordLocalMutation nowMs path size hash payload).2.metadata
    m.originRegion = region ∧ number m = s.nextNumber region ∧
      (∀ r ∈ s.regions, r ≠ region → m.vectorClock.get r < s.nextNumber r) ∧
      (∀ m' ∈ recorded, Covers m.vectorClock m' → m'.stamp < m.stamp) ∧
      ∀ item ∈ (s.node region).ledger path, item.stamp < m.stamp := by
  obtain ⟨hself, -, -, -⟩ := hs.nodes region hregion
  obtain ⟨hlater, hcount, hroom⟩ := hok
  intro m
  set start := (((s.node region).ledger path).map GeoItemMetadata.vectorClock).getD .new with hstart
  have horigin : m.originRegion = region := hself
  have hstamp : m.stamp = toLex (nowMs, region) := by
    show toLex (nowMs, (s.node region).localRegion) = _
    rw [hself]
  have hclock : m.vectorClock.get = update start.get region (start.get region + 1) := by
    show (start.increment (s.node region).localRegion).get = _
    rw [hself, get_increment, Nat.mod_eq_of_lt (by simp only [u64Max] at hroom; omega)]
  have hnumber : number m = s.nextNumber region := by
    rw [number, horigin, hclock, update_self, hcount, nextNumber]
  have hitem : ∀ item ∈ (s.node region).ledger path, item.stamp < m.stamp := by
    rw [hstamp]
    exact hlater
  refine ⟨horigin, hnumber, fun r hr hne => ?_, fun m' hm' hcov => ?_, hitem⟩
  · rw [hclock, update_of_ne hne]
    cases hl : (s.node region).ledger path with
    | none =>
      rw [hstart, hl]
      exact (hs.nodes r hr).2.2.2
    | some item =>
      rw [hstart, hl]
      exact (hs.held region hregion item hl).bounded r hr
  · -- the new number is beyond all recorded ones, so the old clock covers the version too
    have hold : number m' ≤ start.get m'.originRegion := by
      have hcov' : number m' ≤ m.vectorClock.get m'.originRegion := hcov
      rw [hclock] at hcov'
      by_cases hr : m'.originRegion = region
      · have hb := (hs.versions m' hm').bounded region hregion
        have hn : number m' = m'.vectorClock.get region := by rw [number, hr]
        have hc : start.get region + 1 = s.nextNumber region := hcount
        rw [hr]
        omega
      · rwa [update_of_ne hr] at hcov'
    cases hl : (s.node region).ledger path with
    | none =>
      have hpos := (hs.files m' hm').2.2.2
      rw [hstart, hl] at hold
      exact absurd hold (Nat.not_le.mpr hpos)
    | some item =>
      rw [hstart, hl] at hold
      exact ((hs.held region hregion item hl).latest m' hm' hold).trans_lt (hitem item hl)

theorem orderly_write {s' : Cluster}
    (hs : Orderly path recorded s) {region : String} {nowMs size : ℕ} {hash : Hash}
    {payload : Option Bytes} (hok : OrderlyWrite path s (.write region nowMs size hash payload))
    (hstep : s.step path (.write region nowMs size hash payload) = some s') :
    Orderly path
      (((s.node region).recordLocalMutation nowMs path size hash payload).2.metadata :: recorded)
      s' := by
  simp only [step] at hstep
  split_ifs at hstep with hregion
  cases hstep
  obtain ⟨horigin, hnumber, hother, hlater, hheld⟩ := recorded_of_write hs hregion hok
  set r := (s.node region).recordLocalMutation nowMs path size hash payload with hr
  set m := r.2.metadata with hm
  set s' : Cluster := { s with
    node := update s.node region r.1
    inFlight := s.inFlight ++ (s.regions.filter (· ≠ region)).map fun dest => (dest, r.2) } with hs'
  have hnext : s'.nextNumber =
      update s.nextNumber m.originRegion (s.nextNumber m.originRegion + 1) := by
    rw [horigin]
    funext q
    by_cases hq : q = region
    · subst hq
      rw [update_self, nextNumber, hs']
      dsimp only
      rw [update_self]
      rfl
    · rw [update_of_ne hq, nextNumber, hs']
      dsimp only
      rw [update_of_ne hq]
      rfl
  have hnew : r.1.ledger path = some m := update_self ..
  have hoid : m.originRegion ∈ s.regions := horigin ▸ hregion
  have hnum : s.nextNumber m.originRegion ≤ number m := by rw [horigin, hnumber]
  have hversion : Version s.regions
      (update s.nextNumber m.originRegion (s.nextNumber m.originRegion + 1))
      (m :: recorded) m := by
    refine ⟨fun m' hm' hcov => ?_, fun q hq => ?_, m, mem_cons_self, rfl, rfl, Nat.le_refl _⟩
    · rcases mem_cons.mp hm' with rfl | hm'
      · exact le_rfl
      · exact (hlater m' hm' hcov).le
    · by_cases hqr : q = region
      · subst hqr
        rw [horigin, update_self, ← hnumber, number, horigin]
        exact Nat.lt_succ_self _
      · rw [horigin, update_of_ne hqr]
        exact hother q hq hqr
  refine ⟨fun q hq => ?_, fun m' hm' => ?_, fun m' hm' => ?_, fun q hq item hitem => ?_,
    fun x hx => ?_, fun m' hm' q hq => ?_, fun m1 h1 m2 h2 heq => ?_⟩
  · have hnode := hs.nodes q hq
    by_cases hqr : q = region
    · subst hqr
      rw [hnext, horigin]
      simp only [hs', update_self]
      exact ⟨hnode.1, hnode.2.1, update_self .., Nat.succ_pos _⟩
    · rw [hnext, horigin]
      simp only [hs', update_of_ne hqr]
      exact hnode
  · rcases mem_cons.mp hm' with rfl | hm'
    · refine ⟨hoid, rfl, rfl, ?_⟩
      rw [hnumber]
      exact (hs.nodes region hregion).2.2.2
    · exact hs.files m' hm'
  · rw [hnext]
    rcases mem_cons.mp hm' with rfl | hm'
    · exact hversion
    · exact (hs.versions m' hm').cons hoid hnum
  · rw [hnext]
    by_cases hqr : q = region
    · subst hqr
      simp only [hs', update_self, hnew, mem_some_iff] at hitem
      exact hitem ▸ hversion
    · simp only [hs', update_of_ne hqr] at hitem
      exact (hs.held q hq item hitem).cons hoid hnum
  · rcases mem_append.mp hx with hx | hx
    · exact ⟨(hs.onTheWay x hx).1, mem_cons_of_mem _ (hs.onTheWay x hx).2⟩
    · obtain ⟨dest, hdest, rfl⟩ := mem_map.mp hx
      exact ⟨(mem_filter.mp hdest).1, mem_cons_self⟩
  · by_cases hqr : q = region
    · -- the region itself holds the new version, and it is later than what it held
      subst hqr
      simp only [hs', update_self, hnew]
      rcases mem_cons.mp hm' with rfl | hm'
      · exact .inr ⟨_, rfl, le_rfl⟩
      · rcases hs.known m' hm' q hq with ⟨x, hx, hxq⟩ | ⟨item, hitem, hle⟩
        · exact .inl ⟨x, mem_append_left _ hx, hxq⟩
        · exact .inr ⟨_, rfl, hle.trans (hheld item hitem).le⟩
    · simp only [hs', update_of_ne hqr]
      rcases mem_cons.mp hm' with rfl | hm'
      · refine .inl ⟨(q, r.2), mem_append_right _ (mem_map.mpr ⟨q, ?_, rfl⟩), rfl, rfl⟩
        exact mem_filter.mpr ⟨hq, by simpa using hqr⟩
      · rcases hs.known m' hm' q hq with ⟨x, hx, hxq⟩ | hknown
        · exact .inl ⟨x, mem_append_left _ hx, hxq⟩
        · exact .inr hknown
  · -- versions of one region with one stamp: the numbers tell them apart from the new one
    have hself : ∀ m' ∈ recorded, m'.stamp ≠ m.stamp := by
      intro m' hm' heq
      have horig : m'.originRegion = m.originRegion :=
        congrArg (fun st : ℕ ×ₗ String => (ofLex st).2) heq
      refine (hlater m' hm' ?_).ne heq
      have hb := (hs.versions m' hm').bounded region hregion
      show number m' ≤ m.vectorClock.get m'.originRegion
      have hn : number m = m.vectorClock.get m'.originRegion := by rw [number, horig]
      have hn' : number m' = m'.vectorClock.get region := by rw [number, horig, horigin]
      omega
    rcases mem_cons.mp h1 with rfl | h1 <;> rcases mem_cons.mp h2 with rfl | h2
    · rfl
    · exact absurd heq.symm (hself m2 h2)
    · exact absurd heq (hself m1 h1)
    · exact hs.distinct m1 h1 m2 h2 heq

theorem held_of_delivery (hs : Orderly path recorded s) {dest : String} (hdest : dest ∈ s.regions)
    {change : ReplicationChange} (hm : change.metadata ∈ recorded) :
    ∃ item, ((s.node dest).applyRemoteChange change).1.ledger path = some item ∧
      Version s.regions s.nextNumber recorded item ∧ change.metadata.stamp ≤ item.stamp ∧
      ∀ old ∈ (s.node dest).ledger path, old.stamp ≤ item.stamp := by
  obtain ⟨-, hpolicy, hlive, -⟩ := hs.nodes dest hdest
  obtain ⟨-, hpath, hfile, -⟩ := hs.files _ hm
  have hv := hs.versions _ hm
  have happly := (applyRemoteChange_live hpolicy (hpath ▸ hlive) hfile).2
  rw [hpath] at happly
  rcases happly with ⟨hnew, hwhy⟩ | ⟨old, hold, hkeep, hwhy⟩
  · refine ⟨_, hnew, hv, le_rfl, fun old hold => ?_⟩
    rcases hwhy old hold with hclock | hstamp
    · exact (hs.held dest hdest old hold).stamp_le_of_clock_le hv hclock
    · exact hstamp
  · have hvold := hs.held dest hdest old hold
    have hle : change.metadata.stamp ≤ old.stamp := by
      rcases hwhy with hclock | hstamp
      · exact hv.stamp_le_of_clock_le hvold hclock
      · exact hstamp
    refine ⟨_, hkeep, hvold.mergeClock hv hle, hle, fun old' hold' => ?_⟩
    rw [hold] at hold'
    cases hold'
    exact le_rfl

theorem mem_eraseIdx_or {α : Type*} {l : List α} {i : ℕ} {a x : α} (hi : l[i]? = some a)
    (hx : x ∈ l) : x ∈ l.eraseIdx i ∨ x = a := by
  obtain ⟨j, hj⟩ := mem_iff_getElem?.mp hx
  by_cases hij : j = i
  · exact .inr (Option.some.inj (hj.symm.trans (hij ▸ hi)))
  · exact .inl (mem_eraseIdx_iff_getElem?.mpr ⟨j, hij, hj⟩)

theorem orderly_deliver {s' : Cluster} (hs : Orderly path recorded s) {index : ℕ}
    (hstep : s.step path (.deliver index) = some s') : Orderly path recorded s' := by
  simp only [step] at hstep
  cases hx : s.inFlight[index]? with
  | none => simp [hx] at hstep
  | some x =>
    obtain ⟨dest, change⟩ := x
    simp only [hx, Option.some.injEq] at hstep
    obtain ⟨hdest, hm⟩ := hs.onTheWay _ (mem_of_getElem? hx)
    obtain ⟨-, hpolicy, hlive, -⟩ := hs.nodes dest hdest
    obtain ⟨-, hpath, hfile, -⟩ := hs.files _ hm
    obtain ⟨hkept, -⟩ := applyRemoteChange_live hpolicy (hpath ▸ hlive) hfile
    obtain ⟨item, hitem, hversion, hle, hold⟩ := held_of_delivery hs hdest hm
    rw [hpath] at hkept
    subst hstep
    have hnext : (nextNumber { s with
        node := update s.node dest ((s.node dest).applyRemoteChange change).1
        inFlight := s.inFlight.eraseIdx index }) = s.nextNumber := by
      funext q
      by_cases hq : q = dest
      · subst hq
        simp only [nextNumber, update_self, hkept.2.2.1]
      · simp only [nextNumber, update_of_ne hq]
    refine ⟨fun q hq => ?_, hs.files, ?_, fun q hq old hq' => ?_, fun x hx => ?_,
      fun m' hm' q hq => ?_, hs.distinct⟩
    · rw [hnext]
      have hnode := hs.nodes q hq
      by_cases hqd : q = dest
      · subst hqd
        simp only [update_self]
        exact ⟨hkept.1.trans hnode.1, hkept.2.1.trans hnode.2.1, hkept.2.2.2, hnode.2.2.2⟩
      · simp only [update_of_ne hqd]
        exact hnode
    · rw [hnext]
      exact hs.versions
    · rw [hnext]
      by_cases hqd : q = dest
      · subst hqd
        simp only [update_self, hitem, mem_some_iff] at hq'
        exact hq' ▸ hversion
      · simp only [update_of_ne hqd] at hq'
        exact hs.held q hq old hq'
    · exact hs.onTheWay x (mem_of_mem_eraseIdx hx)
    · by_cases hqd : q = dest
      · -- the region either still waits for the version, or holds one that is not earlier
        subst hqd
        simp only [update_self, hitem]
        rcases hs.known m' hm' q hq with ⟨x, hxin, hxq, rfl⟩ | ⟨old, hold', hle'⟩
        · rcases mem_eraseIdx_or hx hxin with hin | rfl
          · exact .inl ⟨x, hin, hxq, rfl⟩
          · exact .inr ⟨_, rfl, hle⟩
        · exact .inr ⟨_, rfl, hle'.trans (hold old hold')⟩
      · simp only [update_of_ne hqd]
        rcases hs.known m' hm' q hq with ⟨x, hxin, hxq, rfl⟩ | hknown
        · rcases mem_eraseIdx_or hx hxin with hin | rfl
          · exact .inl ⟨x, hin, hxq, rfl⟩
          · exact absurd hxq.symm hqd
        · exact .inr hknown

theorem run_orderly {h : List (Cluster × ClusterEvent)}
    (hrun : Run (step path) (OrderlyWrite path) (Fresh .lastWriteWins) h s) :
    Orderly path (recordedIn path h) s := by
  refine Run.invariant (I := fun h s => Orderly path (recordedIn path h) s)
    (fun s hs => orderly_of_fresh hs) (fun h s e s' _ hI hok hstep => ?_) hrun
  cases e with
  | write region nowMs size hash payload => exact orderly_write hI hok hstep
  | deliver index => exact orderly_deliver hI hstep

theorem holds_last
    (hs : Orderly path recorded s) (hway : s.inFlight = []) {r : String} (hr : r ∈ s.regions)
    {m : GeoItemMetadata} (hm : m ∈ recorded) :
    ∃ item last, (s.node r).ledger path = some item ∧ last ∈ recorded ∧
      last.hash = item.hash ∧ ∀ m' ∈ recorded, m'.stamp ≤ last.stamp := by
  have hall : ∀ m' ∈ recorded, ∃ item ∈ (s.node r).ledger path, m'.stamp ≤ item.stamp := by
    intro m' hm'
    rcases hs.known m' hm' r hr with ⟨x, hx, -⟩ | h
    · rw [hway] at hx
      cases hx
    · exact h
  obtain ⟨item, hitem, -⟩ := hall m hm
  obtain ⟨last, hlast, hstamp, hhash, -⟩ := (hs.held r hr item hitem).recorded
  refine ⟨item, last, hitem, hlast, hhash, fun m' hm' => ?_⟩
  obtain ⟨item', hitem', hle⟩ := hall m' hm'
  rw [hitem] at hitem'
  cases hitem'
  exact hstamp ▸ hle

/-- **Last-write-wins converges** in every run whose writes are orderly: once every change has been
delivered to every other region, in whatever order, all regions hold the same content. -/
theorem converged_of_run {path : String} {h : List (Cluster × ClusterEvent)} {s : Cluster}
    (hrun : Run (step path) (OrderlyWrite path) (Fresh .lastWriteWins) h s) : s.Converged path := by
  intro hway r hr r' hr'
  have hs := run_orderly hrun
  cases hrec : recordedIn path h with
  | nil =>
    -- nothing was written: a version held would have been recorded
    have hnone : ∀ q ∈ s.regions, (s.node q).ledger path = none := by
      intro q hq
      refine eq_none_iff_forall_not_mem.mpr fun item hitem => ?_
      obtain ⟨m, hm, -⟩ := (hs.held q hq item hitem).recorded
      rw [hrec] at hm
      cases hm
    rw [hashAt, hashAt, hnone r hr, hnone r' hr']
  | cons m ms =>
    have hm : m ∈ recordedIn path h := hrec ▸ mem_cons_self
    obtain ⟨item, last, hitem, hlast, hhash, hmax⟩ := holds_last hs hway hr hm
    obtain ⟨item', last', hitem', hlast', hhash', hmax'⟩ := holds_last hs hway hr' hm
    have heq : last.stamp = last'.stamp := le_antisymm (hmax' last hlast) (hmax last' hlast')
    rw [hashAt, hashAt, hitem, hitem', map_some, map_some, ← hhash, ← hhash',
      hs.distinct last hlast last' hlast' heq]

def twoRegions : Cluster :=
  ⟨["a", "b"], fun r => .new r .lastWriteWins (["a", "b"].filter (· ≠ r)), []⟩

theorem fresh_twoRegions : Fresh .lastWriteWins twoRegions :=
  ⟨by decide, rfl, fun _ _ => rfl⟩

def crossing : List ClusterEvent :=
  [.write "a" 10 1 (.repeated 1) none, .write "b" 20 1 (.repeated 2) none, .deliver 1, .deliver 0,
    .write "b" 30 1 (.repeated 3) none, .deliver 0]

theorem converged_of_run_crossing :
    ∃ h s, Run (step "f") (OrderlyWrite "f") (Fresh .lastWriteWins) h s ∧ s.inFlight = [] ∧
      s.hashAt "f" "a" = some (.repeated 3) ∧ s.hashAt "f" "a" = s.hashAt "f" "b" := by
  have hex : ((exec (step "f") (fun s e => decide (OrderlyWrite "f" s e)) [] twoRegions
      crossing).any fun r => r.2.inFlight == [] && r.2.regions == ["a", "b"] &&
        r.2.hashAt "f" "a" == some (.repeated 3)) = true := by decide
  obtain ⟨⟨h, s⟩, hexec, hall⟩ := (any_eq_true _ _).mp hex
  simp only [Bool.and_eq_true, beq_iff_eq] at hall
  obtain ⟨⟨hway, hregions⟩, hhash⟩ := hall
  have hrun : Run (step "f") (OrderlyWrite "f") (Fresh .lastWriteWins) h s :=
    (run_exec (.start fresh_twoRegions) hexec).imp fun _ _ _ _ hc => of_decide_eq_true hc
  exact ⟨h, s, hrun, hway, hhash, converged_of_run hrun hway "a" (by simp [hregions]) "b"
    (by simp [hregions])⟩

/-- The same crossing, but now the region whose version was replaced writes again. Its clock has lost
its own counter, so the new change carries the clock the other region has already merged. -/
def lostCounter : List ClusterEvent :=
  [.write "a" 10 1 (.repeated 1) none, .write "b" 20 1 (.repeated 2) none, .deliver 1,
    .write "a" 30 1 (.repeated 3) none, .deliver 0, .deliver 0]

/-- All wall-clock readings grow, every change is delivered, and the latest write is lost at `b`. -/
theorem not_converged_lostCounter :
    ∃ h s, Run (step "f") (fun _ _ => True) (Fresh .lastWriteWins) h s ∧ (stamps h).Nodup ∧
      s.inFlight = [] ∧ ¬ s.Converged "f" := by
  have hex : ((exec (step "f") (fun _ _ => true) [] twoRegions lostCounter).any fun r =>
      decide (stamps r.1).Nodup && r.2.inFlight == [] && r.2.regions == ["a", "b"] &&
        r.2.hashAt "f" "a" == some (.repeated 3) &&
        r.2.hashAt "f" "b" == some (.repeated 2)) = true := by decide
  obtain ⟨⟨h, s⟩, hexec, hall⟩ := (any_eq_true _ _).mp hex
  simp only [Bool.and_eq_true, beq_iff_eq, decide_eq_true_eq] at hall
  obtain ⟨⟨⟨⟨hstamps, hway⟩, hregions⟩, ha⟩, hb⟩ := hall
  refine ⟨h, s, (run_exec (.start fresh_twoRegions) hexec).imp fun _ _ _ _ _ => trivial, hstamps,
    hway, fun hconv => ?_⟩
  have heq := hconv hway "a" (by simp [hregions]) "b" (by simp [hregions])
  rw [ha, hb] at heq
  exact absurd heq (by decide)

end Cluster

end Velcrux.Sync
