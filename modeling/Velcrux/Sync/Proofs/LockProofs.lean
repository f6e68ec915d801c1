import Velcrux.Foundations.Lease
import Velcrux.Sync.Lock

/-!
# The lock manager excludes

Every call is a move of the table of leases: it gives leases up, or grants one that is compatible
with those that are left. Tokens stay distinct as long as the counter is ahead of them.
-/

namespace Velcrux.Sync

open List LockMap

open Lease (Held Move Excludes Compatible Distinct Within)

variable {entries : List (String × List LeaseLock)}

def hold (resource : String) (l : LeaseLock) : Held String :=
  ⟨resource, decide (l.mode = .exclusive), l.fencingToken⟩

namespace LockMap

def held (m : LockMap) : Multiset (Held String) :=
  ↑(m.entries.flatMap fun e => e.2.map (hold e.1))

variable {m m' : LockMap} {resource : String} {f : List LeaseLock → List LeaseLock}

theorem held_of_perm (h : m'.entries.Perm m.entries) : m'.held = m.held :=
  Multiset.coe_eq_coe.mpr (h.flatMap_right _)

theorem flatMap_hold_sublist {g : String × List LeaseLock → String × List LeaseLock}
    (hg : ∀ e, ((g e).2.map (hold (g e).1)).Sublist (e.2.map (hold e.1))) :
    ((entries.map g).flatMap fun e => e.2.map (hold e.1)).Sublist
      (entries.flatMap fun e => e.2.map (hold e.1)) := by
  rw [flatMap_map]
  exact List.Sublist.flatMap_right entries fun e _ => hg e

theorem held_modify_le
    (hf : ∀ ls : List LeaseLock, ((f ls).map (hold resource)).Sublist (ls.map (hold resource))) :
    (m.modify resource f).held ≤ m.held := by
  refine Multiset.coe_le.mpr (flatMap_hold_sublist fun e => ?_).subperm
  by_cases he : e.1 = resource
  · rw [if_pos he, he]
    exact hf e.2
  · rw [if_neg he]

theorem held_remove_le : (m.remove resource).held ≤ m.held :=
  Multiset.coe_le.mpr (filter_sublist.flatMap _).subperm

theorem held_retain_le (hf : ∀ ls : List LeaseLock, (f ls).Sublist ls) :
    (m.retain f).held ≤ m.held := by
  refine Multiset.coe_le.mpr (List.Sublist.subperm ?_)
  exact (filter_sublist.flatMap _).trans (flatMap_hold_sublist fun e => (hf e.2).map _)

/-! ### The leases on one resource -/

theorem filter_hold_self (leases : List LeaseLock) :
    (leases.map (hold resource)).filter (fun h => h.resource = resource) =
      leases.map (hold resource) :=
  filter_eq_self.mpr fun h hh => by
    obtain ⟨l, -, rfl⟩ := mem_map.mp hh
    simp [hold]

theorem filter_hold_of_not_mem (hr : resource ∉ entries.map Prod.fst) :
    (entries.flatMap fun e => e.2.map (hold e.1)).filter (fun h => h.resource = resource) = [] := by
  refine filter_eq_nil_iff.mpr fun h hh hhr => hr ?_
  obtain ⟨e, he, hh⟩ := mem_flatMap.mp hh
  obtain ⟨l, -, rfl⟩ := mem_map.mp hh
  exact mem_map.mpr ⟨e, he, of_decide_eq_true hhr⟩

theorem filter_hold_entries (hnodup : (entries.map Prod.fst).Nodup) :
    (entries.flatMap fun e => e.2.map (hold e.1)).filter (fun h => h.resource = resource) =
      (((entries.find? fun e => e.1 = resource).map Prod.snd).getD []).map (hold resource) := by
  induction entries with
  | nil => simp
  | cons e entries ih =>
    obtain ⟨hhead, hrest⟩ := nodup_cons.mp hnodup
    rw [flatMap_cons, filter_append]
    by_cases he : e.1 = resource
    · subst he
      rw [filter_hold_self, filter_hold_of_not_mem hhead]
      simp
    · have hskip : (e.2.map (hold e.1)).filter (fun h => h.resource = resource) = [] :=
        filter_eq_nil_iff.mpr fun h hh => by
          obtain ⟨l, -, rfl⟩ := mem_map.mp hh
          simp [hold, he]
      rw [hskip, ih hrest]
      simp [he]

theorem filter_held (m : LockMap) (resource : String) :
    m.held.filter (fun h => h.resource = resource) =
      ↑(((m.get resource).getD []).map (hold resource)) := by
  rw [held, Multiset.filter_coe, filter_hold_entries m.nodup]
  rfl

theorem exists_lease_of_mem_held {h : Held String} (hh : h ∈ m.held) :
    ∃ l ∈ (m.get h.resource).getD [], h = hold h.resource l := by
  have hmem : h ∈ m.held.filter (fun h' => h'.resource = h.resource) :=
    Multiset.mem_filter.mpr ⟨hh, rfl⟩
  rw [filter_held] at hmem
  obtain ⟨l, hl, hlh⟩ := mem_map.mp hmem
  exact ⟨l, hl, hlh.symm⟩

theorem mem_held_of_lease {leases : List LeaseLock} {l : LeaseLock}
    (hget : m.get resource = some leases) (hl : l ∈ leases) : hold resource l ∈ m.held := by
  have hmem : hold resource l ∈ m.held.filter (fun h => h.resource = resource) := by
    rw [filter_held, hget]
    exact mem_map_of_mem hl
  exact (Multiset.mem_filter.mp hmem).1

theorem map_token_held (m : LockMap) :
    m.held.map Held.token = ↑(m.leases.map LeaseLock.fencingToken) := by
  rw [held, leases, Multiset.map_coe, map_flatMap, map_flatMap]
  simp [Function.comp_def, hold]

theorem excludes_iff (m : LockMap) (resource : String) :
    Excludes m.held resource ↔ ∀ leases, m.get resource = some leases →
      (∀ l ∈ leases, l.mode = .shared) ∨ ∃ l, leases = [l] ∧ l.mode = .exclusive := by
  have hmode : ∀ l : LeaseLock, (hold resource l).exclusive = false ↔ l.mode = .shared := by
    intro l
    cases hl : l.mode <;> simp [hold, hl]
  constructor
  · rintro (hshared | ⟨h, hfilter, hexclusive⟩) leases hget
    · exact .inl fun l hl => (hmode l).mp (hshared _ (mem_held_of_lease hget hl) rfl)
    · rw [filter_held, hget, Multiset.coe_eq_singleton] at hfilter
      obtain ⟨l, hleases, rfl⟩ := map_eq_singleton_iff.mp hfilter
      exact .inr ⟨l, hleases, of_decide_eq_true hexclusive⟩
  · intro h
    cases hget : m.get resource with
    | none =>
      refine .inl fun h' hh' hr => ?_
      obtain ⟨l, hl, -⟩ := exists_lease_of_mem_held hh'
      simp [hr, hget] at hl
    | some leases =>
      rcases h leases hget with hshared | ⟨l, rfl, hexclusive⟩
      · refine .inl fun h' hh' hr => ?_
        obtain ⟨l, hl, hhold⟩ := exists_lease_of_mem_held hh'
        rw [hr, hget] at hl
        rw [hhold]
        exact (hmode l).mpr (hshared l hl)
      · exact .inr ⟨hold resource l, by rw [filter_held, hget]; rfl, decide_eq_true hexclusive⟩

theorem mutuallyExclusive_iff :
    m.MutuallyExclusive ↔ (∀ resource, Excludes m.held resource) ∧ Distinct m.held := by
  rw [Distinct, map_token_held]
  constructor
  · intro h
    exact ⟨fun resource => (excludes_iff m resource).mpr (h.modes resource), h.tokens⟩
  · rintro ⟨hmodes, htokens⟩
    exact ⟨fun resource => (excludes_iff m resource).mp (hmodes resource), htokens⟩

theorem within_iff {c : ℕ} : Within m.held c ↔ ∀ l ∈ m.leases, l.fencingToken ≤ c := by
  have hmap : Within m.held c ↔ ∀ t ∈ m.held.map Held.token, t ≤ c := by simp [Within]
  rw [hmap, map_token_held]
  simp

theorem flatMap_hold_push {lease : LeaseLock}
    (hnodup : (entries.map Prod.fst).Nodup) (hr : resource ∈ entries.map Prod.fst) :
    ((entries.map fun e => if e.1 = resource then (e.1, e.2 ++ [lease]) else e).flatMap
        fun e => e.2.map (hold e.1)).Perm
      (hold resource lease :: entries.flatMap fun e => e.2.map (hold e.1)) := by
  induction entries with
  | nil => simp at hr
  | cons e entries ih =>
    obtain ⟨hhead, hrest⟩ := nodup_cons.mp hnodup
    rw [map_cons, flatMap_cons, flatMap_cons]
    by_cases he : e.1 = resource
    · -- the keys are distinct, so no later entry is changed
      have hsame : entries.map (fun e => if e.1 = resource then (e.1, e.2 ++ [lease]) else e) =
          entries := by
        conv_rhs => rw [← map_id entries]
        refine map_congr_left fun e' he' => if_neg fun hkey => hhead ?_
        exact he ▸ hkey ▸ mem_map_of_mem he'
      rw [if_pos he, hsame, he, map_append, append_assoc]
      exact perm_middle
    · have hmem : resource ∈ entries.map Prod.fst := by simpa [Ne.symm he] using hr
      rw [if_neg he]
      exact ((ih hrest hmem).append_left _).trans perm_middle

theorem held_push (m : LockMap) (resource : String) (lease : LeaseLock) :
    (m.push resource lease).held = hold resource lease ::ₘ m.held := by
  rw [push]
  split
  next hr => exact Multiset.coe_eq_coe.mpr (flatMap_hold_push m.nodup hr)
  next hr =>
    rw [held, held, Multiset.cons_coe, Multiset.coe_eq_coe, flatMap_append]
    exact perm_append_comm

end LockMap

/-! ## The calls -/

namespace DistributedLockManager

variable {m m' : DistributedLockManager} {c : LockCall}

def view (m : DistributedLockManager) : Multiset (Held String) × ℕ := (m.locks.held, m.tokenCounter)

theorem compatible_of_conflict_eq_none {leases : List LeaseLock} {resource : String}
    {mode : LockMode} {nowSecs : ℕ} (h : conflict resource mode nowSecs leases = none) :
    ∀ l ∈ leases, mode = .shared ∧ l.mode = .shared := by
  intro l hl
  cases leases with
  | nil => simp at hl
  | cons existing leases =>
    cases mode with
    | exclusive => simp [conflict] at h
    | shared =>
      rw [conflict, Option.map_eq_none_iff, List.find?_eq_none] at h
      refine ⟨rfl, ?_⟩
      cases hmode : l.mode with
      | shared => rfl
      | exclusive => exact absurd (decide_eq_true hmode) (h l hl)

theorem hold_sublist_of_filter (resource : String) (p : LeaseLock → Bool) (ls : List LeaseLock) :
    ((ls.filter p).map (hold resource)).Sublist (ls.map (hold resource)) :=
  filter_sublist.map _

theorem move_acquire (m : DistributedLockManager) (resource holderId : String) (mode : LockMode)
    (ttlSecs : Option ℕ) (nowSecs rand : ℕ) :
    Move nextToken m.view (m.acquire resource holderId mode ttlSecs nowSecs rand).1.view := by
  unfold acquire
  split
  next => exact .giveUp le_rfl
  next canonResource _ =>
    split
    next => exact .giveUp le_rfl
    next =>
      have hpurge := held_modify_le (m := m.locks)
        (hold_sublist_of_filter canonResource fun l => !l.isExpired nowSecs)
      dsimp only
      split
      next => exact .giveUp hpurge
      next hconflict =>
        have hfree := compatible_of_conflict_eq_none hconflict
        rw [view, view, held_push]
        refine .grant hpurge (fun h hh hr => ?_) rfl
        obtain ⟨l, hl, hhold⟩ := exists_lease_of_mem_held hh
        have hr' : h.resource = canonResource := hr
        rw [hr'] at hl
        obtain ⟨hmode, hlmode⟩ := hfree l hl
        rw [hhold]
        simp [hold, hmode, hlmode]

theorem map_hold_modify {resource : String} {f : LeaseLock → LeaseLock}
    (hf : ∀ l, hold resource (f l) = hold resource l) (ls : List LeaseLock) (i : ℕ) :
    (ls.modify i f).map (hold resource) = ls.map (hold resource) := by
  induction ls generalizing i with
  | nil => simp
  | cons l ls ih => cases i <;> simp [hf, ih]

theorem move_renew (m : DistributedLockManager) (lockId holderId : String)
    (extensionSecs : Option ℕ) (nowSecs : ℕ) :
    Move nextToken m.view (m.renew lockId holderId extensionSecs nowSecs).1.view := by
  unfold renew
  split
  next => exact .giveUp le_rfl
  next resource lease _ =>
    split
    next => exact .giveUp le_rfl
    next =>
      split
      next => exact .giveUp le_rfl
      next =>
        -- a renewed lease keeps its mode and its token
        refine .giveUp (held_modify_le fun ls => ?_)
        convert List.Sublist.refl _ using 1
        exact (map_hold_modify (by intro l; rfl) ls _).symm

theorem move_release (m : DistributedLockManager) (lockId holderId : String) :
    Move nextToken m.view (m.release lockId holderId).1.view := by
  unfold release
  split
  next => exact .giveUp le_rfl
  next resource lease _ =>
    split
    next => exact .giveUp le_rfl
    next =>
      have herase : (m.locks.modify resource fun ls =>
          ls.eraseIdx (ls.findIdx fun l => l.lockId = lockId)).held ≤ m.locks.held :=
        held_modify_le fun ls => (eraseIdx_sublist _ _).map _
      refine .giveUp ?_
      dsimp only
      split
      next => exact held_remove_le.trans herase
      next => exact herase

theorem move_purgeExpired (m : DistributedLockManager) (nowSecs : ℕ) :
    Move nextToken m.view (m.purgeExpired nowSecs).1.view :=
  .giveUp (held_retain_le fun _ => filter_sublist)

theorem move_call (m : DistributedLockManager) (c : LockCall) :
    Move nextToken m.view (m.call c).1.view := by
  cases c with
  | acquire resource holderId mode ttlSecs nowSecs rand =>
    exact move_acquire m resource holderId mode ttlSecs nowSecs rand
  | renew lockId holderId extensionSecs nowSecs =>
    exact move_renew m lockId holderId extensionSecs nowSecs
  | release lockId holderId _ => exact move_release m lockId holderId
  | purgeExpired nowSecs => exact move_purgeExpired m nowSecs

theorem move_of_step (hstep : m.Step c m') : Move nextToken m.view m'.view := by
  obtain ⟨horder⟩ := hstep
  have hview : ({ m with locks := _ } : DistributedLockManager).view = m.view :=
    Prod.ext (held_of_perm horder) rfl
  exact hview ▸ move_call _ c

/-! ## Runs -/

theorem grantedToken_call (m : DistributedLockManager) (c : LockCall) :
    (c.grantedToken (m.call c).2.1 = none ∧ (m.call c).1.tokenCounter = m.tokenCounter) ∨
      (c.isAcquire = true ∧ c.grantedToken (m.call c).2.1 = some (nextToken m.tokenCounter) ∧
        (m.call c).1.tokenCounter = nextToken m.tokenCounter) := by
  cases c with
  | acquire resource holderId mode ttlSecs nowSecs rand =>
    simp only [call, acquire, LockCall.isAcquire, true_and]
    split
    · exact .inl ⟨rfl, rfl⟩
    · split
      · exact .inl ⟨rfl, rfl⟩
      · split
        · exact .inl ⟨rfl, rfl⟩
        · exact .inr ⟨rfl, rfl⟩
  | renew lockId holderId extensionSecs nowSecs =>
    simp only [call, renew]
    split
    · exact .inl ⟨rfl, rfl⟩
    · split
      · exact .inl ⟨rfl, rfl⟩
      · split <;> exact .inl ⟨rfl, rfl⟩
  | release lockId holderId nowSecs =>
    simp only [call, release]
    split
    · exact .inl ⟨rfl, rfl⟩
    · split <;> exact .inl ⟨rfl, rfl⟩
  | purgeExpired nowSecs => exact .inl ⟨rfl, rfl⟩

theorem nextToken_ne (counter : ℕ) : nextToken counter ≠ counter := by
  rw [nextToken]
  omega

theorem nextToken_of_lt {counter : ℕ} (h : counter + 1 < 2 ^ 64) :
    nextToken counter = counter + 1 := Nat.mod_eq_of_lt h

/-- Mutual exclusion holds in every state that calls lead to, whatever the tokens are. -/
theorem excludes_of_runs {calls : List LockCall} (hrun : m.Runs calls m') (resource : String)
    (h : Excludes m.locks.held resource) : Excludes m'.locks.held resource := by
  induction hrun with
  | nil => exact h
  | cons hstep _ ih => exact ih ((move_of_step hstep).excludes h)

/-- The tokens stay distinct and within the counter, as long as the counter has room. -/
theorem distinct_of_runs {calls : List LockCall} (hrun : m.Runs calls m')
    (hroom : m.tokenCounter + calls.countP LockCall.isAcquire < 2 ^ 64)
    (hdistinct : Distinct m.locks.held) (hwithin : Within m.locks.held m.tokenCounter) :
    Distinct m'.locks.held ∧ Within m'.locks.held m'.tokenCounter := by
  induction hrun with
  | nil => exact ⟨hdistinct, hwithin⟩
  | @cons m m1 m2 c calls hstep _ ih =>
    have hmove := move_of_step hstep
    have hcounter : m1.tokenCounter = m.tokenCounter ∨
        c.isAcquire = true ∧ m1.tokenCounter = nextToken m.tokenCounter := by
      obtain ⟨horder⟩ := hstep
      exact (grantedToken_call _ c).imp And.right fun h => ⟨h.1, h.2.2⟩
    rw [countP_cons] at hroom
    rcases hcounter with hsame | ⟨hacquire, hnext⟩
    · obtain ⟨hdistinct', hwithin'⟩ :=
        hmove.distinct (nextToken_ne _) hsame.ge hdistinct hwithin
      exact ih (by omega) hdistinct' hwithin'
    · rw [hacquire, if_pos rfl] at hroom
      have hup : m1.tokenCounter = m.tokenCounter + 1 := by
        rw [hnext, nextToken_of_lt (by omega)]
      obtain ⟨hdistinct', hwithin'⟩ :=
        hmove.distinct (nextToken_ne _) (by rw [view, view]; omega) hdistinct hwithin
      exact ih (by omega) hdistinct' hwithin'

theorem runs_foldl (m : DistributedLockManager) (calls : List LockCall) :
    m.Runs calls (calls.foldl (fun m c => (m.call c).1) m) := by
  induction calls generalizing m with
  | nil => exact .nil m
  | cons c calls ih => exact .cons (Step.mk (List.Perm.refl _)) (ih _)

/-- **Main theorem.** The calls on a manager that starts on a table with the property keep it, if the
counter starts at no less than every stored token and has room for the calls. -/
theorem mutuallyExclusive_of_runs (file : Option LockReport) (ttl maxTtl : ℕ)
    (calls : List LockCall) (m : DistributedLockManager)
    (hrun : (start file ttl maxTtl).Runs calls m)
    (hstart : (start file ttl maxTtl).locks.MutuallyExclusive)
    (hahead : ∀ l ∈ (start file ttl maxTtl).locks.leases,
      l.fencingToken ≤ (start file ttl maxTtl).tokenCounter)
    (hroom : (start file ttl maxTtl).tokenCounter +
      calls.countP LockCall.isAcquire < 2 ^ 64) : m.locks.MutuallyExclusive := by
  rw [LockMap.mutuallyExclusive_iff] at hstart ⊢
  obtain ⟨hexcludes, hdistinct⟩ := hstart
  have hwithin := LockMap.within_iff.mpr hahead
  exact ⟨fun resource => excludes_of_runs hrun resource (hexcludes resource),
    (distinct_of_runs hrun hroom hdistinct hwithin).1⟩

def storedLease : LeaseLock where
  lockId := "lck-101-7"
  resource := "/a"
  holderId := "h"
  mode := .shared
  fencingToken := 101
  grantedAtSecs := 0
  expiresAtSecs := 60
  ttlSecs := 60

def storedReport (highestFencingToken : ℕ) : LockReport :=
  ⟨1, 0, 1, highestFencingToken, [storedLease]⟩

theorem start_storedReport_mutuallyExclusive (n : ℕ) :
    (start (some (storedReport n)) 60 3600).locks.MutuallyExclusive := by
  have hentries : (start (some (storedReport n)) 60 3600).locks.entries =
      [("/a", [storedLease])] := rfl
  refine ⟨fun resource leases hget => ?_, by simp [LockMap.leases, hentries]⟩
  rw [LockMap.get, hentries] at hget
  by_cases hr : "/a" = resource
  · simp [hr] at hget
    simp [← hget, storedLease]
  · simp [hr] at hget

/-- Calls that meet the stored lease and each other: two of them find their resource busy. -/
def contending : List LockCall :=
  [.acquire "a" "g" .exclusive none 0 0, .acquire "a" "g" .shared none 1 0,
    .acquire "b" "g" .exclusive none 2 0, .acquire "b" "h" .shared none 3 0,
    .renew "lck-106-0" "g" none 4, .release "lck-101-7" "h" 5]

theorem mutuallyExclusive_contending :
    ∃ m, (start (some (storedReport 105)) 60 3600).Runs contending m ∧
      m.locks.leases.map (fun l => (l.resource, l.mode, l.fencingToken)) =
        [("/a", .shared, 106), ("/b", .exclusive, 107)] ∧ m.locks.MutuallyExclusive :=
  ⟨_, runs_foldl _ _, by decide,
    mutuallyExclusive_of_runs (some (storedReport 105)) 60 3600 contending _ (runs_foldl _ _)
      (start_storedReport_mutuallyExclusive 105) (by decide) (by decide)⟩

/-- The next lease, on another resource, gets the token that is stored. -/
theorem not_mutuallyExclusive_behindReport :
    (start (some (storedReport 100)) 60 3600).locks.MutuallyExclusive ∧
      ∃ m, (start (some (storedReport 100)) 60 3600).Runs [.acquire "b" "h" .shared none 0 0] m ∧
        ¬ m.locks.MutuallyExclusive := by
  refine ⟨start_storedReport_mutuallyExclusive 100, _, runs_foldl _ _, fun h => ?_⟩
  exact absurd h.tokens (by decide)

end DistributedLockManager

end Velcrux.Sync
