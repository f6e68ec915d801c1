import Velcrux.Sync.Causality

/-!
# Vector clocks as functions, and the causality of local changes

A clock is read through `get`, a function from regions to counters: `compare` is the order of these
functions, `merge` their supremum, `increment` an update.
-/

namespace Velcrux.Sync

open Function

namespace VectorClock

variable {c d : VectorClock}

@[simp] theorem get_new (r : String) : VectorClock.new.get r = 0 := rfl

theorem mem_keys_of_pos {r : String} (h : 0 < c.get r) : r ∈ c.clocks.keys := by
  by_contra hr
  have hnone : c.clocks.get? r = none := Option.eq_none_iff_forall_ne_some.mpr fun v hv =>
    hr (List.mem_map.mpr ⟨(r, v), c.clocks.mem_entries_iff.mpr hv, rfl⟩)
  simp [get, hnone] at h

theorem any_regions {r : String} (h : d.get r < c.get r) (keys : List String)
    (hk : c.clocks.keys ⊆ keys) : (keys.any fun r => d.get r < c.get r) = true :=
  List.any_eq_true.mpr ⟨r, hk (mem_keys_of_pos (by omega)), by simpa using h⟩

theorem any_eq_true_iff (keys : List String) (hk : c.clocks.keys ⊆ keys) :
    (keys.any fun r => d.get r < c.get r) = true ↔ ∃ r, d.get r < c.get r := by
  constructor
  · intro h
    obtain ⟨r, -, hr⟩ := List.any_eq_true.mp h
    exact ⟨r, by simpa using hr⟩
  · rintro ⟨r, hr⟩
    exact any_regions hr keys hk

theorem compare_flags (c d : VectorClock) :
    ∃ hasGreater hasLess : Bool, (c.get ≤ d.get ↔ hasGreater = false) ∧
      (d.get ≤ c.get ↔ hasLess = false) ∧ c.compare d =
        match hasGreater, hasLess with
        | false, false => .equal
        | true, false => .greater
        | false, true => .less
        | true, true => .concurrent := by
  refine ⟨_, _, ?_, ?_, rfl⟩
  · rw [← Bool.not_eq_true, any_eq_true_iff _ (List.subset_append_left _ _)]
    push Not
    rfl
  · rw [← Bool.not_eq_true, any_eq_true_iff _ (List.subset_append_right _ _)]
    push Not
    rfl

theorem compare_eq_greater : c.compare d = .greater ↔ d.get < c.get := by
  obtain ⟨g, l, hg, hl, h⟩ := compare_flags c d
  rw [h, lt_iff_le_not_ge, hg, hl]
  cases g <;> cases l <;> simp

theorem get_increment (c : VectorClock) (region : String) :
    (c.increment region).get = Function.update c.get region ((c.get region + 1) % 2 ^ 64) := by
  funext r
  by_cases hr : r = region
  · subst hr
    simp [increment, get, SortedMap.get?_insert]
  · simp [increment, get, SortedMap.get?_insert, hr, Ne.symm hr]

end VectorClock

open VectorClock GeoReplicationCoordinator

/-! ## Causality of local changes -/

theorem lt_increment_iff {region : String} {held start : VectorClock}
    (hroom : start.get region < u64Max) :
    held.get < (start.increment region).get ↔ Overtaken region held start := by
  have hmod : (start.get region + 1) % 2 ^ 64 = start.get region + 1 :=
    Nat.mod_eq_of_lt (by simp only [u64Max] at hroom; omega)
  rw [get_increment, Pi.lt_def, le_update_iff]
  constructor
  · rintro ⟨⟨hregion, hother⟩, r, hr⟩
    refine ⟨hother, ?_⟩
    by_cases hrr : r = region
    · subst hrr
      rw [update_self] at hr
      exact .inl (by omega)
    · rw [update_of_ne hrr] at hr
      by_cases hlt : held.get region ≤ start.get region
      · exact .inl hlt
      · exact .inr ⟨by omega, r, hrr, hr⟩
  · rintro ⟨hother, hregion | ⟨hregion, r, hrr, hr⟩⟩
    · refine ⟨⟨by omega, hother⟩, region, ?_⟩
      rw [update_self]
      omega
    · refine ⟨⟨by omega, hother⟩, r, ?_⟩
      rwa [update_of_ne hrr]

/-- An exhausted counter wraps, and the clock falls behind what it was. -/
theorem not_lt_increment {region : String} {start : VectorClock}
    (hfull : u64Max ≤ start.get region) : ¬ start.get < (start.increment region).get := by
  intro hlt
  have h : start.get region ≤ (start.increment region).get region := hlt.le region
  rw [get_increment, update_self] at h
  simp only [u64Max] at hfull
  rcases Nat.lt_or_ge (start.get region) (2 ^ 64) with hs | hs
  · have : start.get region + 1 = 2 ^ 64 := by omega
    omega
  · omega

theorem call_change (H : HashFn) (c : GeoReplicationCoordinator) {op : GeoCall} {relPath : String}
    (h : changedPath op = some relPath) :
    ∃ change, (c.call H op).2 = some change ∧ change.metadata.relPath = relPath ∧
      change.metadata.vectorClock = (c.startClock op).increment c.localRegion := by
  cases op with
  | mutation nowMs path size hash payload =>
    cases h
    exact ⟨_, rfl, rfl, rfl⟩
  | deletion nowMs path =>
    cases h
    refine ⟨_, rfl, rfl, ?_⟩
    simp only [recordLocalDeletion, GeoItemMetadata.tombstone, startClock, localMeta]
    cases c.ledger relPath <;> rfl
  | remote change => exact absurd h (by simp [changedPath])

theorem call_remote {H : HashFn} {c : GeoReplicationCoordinator} {op : GeoCall}
    (h : changedPath op = none) : (c.call H op).2 = none := by
  cases op with
  | mutation | deletion => exact absurd h (by simp [changedPath])
  | remote change => rfl

theorem startClock_mem {c : GeoReplicationCoordinator} {op : GeoCall} {relPath : String}
    (h : changedPath op = some relPath) (hpos : 0 < (c.startClock op).get c.localRegion) :
    c.startClock op ∈ c.heldClocks relPath := by
  cases op with
  | mutation nowMs path size hash payload =>
    cases h
    simp only [startClock, heldClocks] at hpos ⊢
    cases hl : c.ledger relPath with
    | none => simp [hl] at hpos
    | some item => simp
  | deletion nowMs path =>
    cases h
    simp only [startClock, heldClocks, localMeta] at hpos ⊢
    cases hl : c.ledger relPath with
    | some item => simp
    | none =>
      cases ht : c.tombstones relPath with
      | none => simp [hl, ht] at hpos
      | some item => simp
  | remote change => exact absurd h (by simp [changedPath])

theorem dominatesHeld_iff (H : HashFn) (c : GeoReplicationCoordinator) (op : GeoCall) :
    DominatesHeld H c op ↔ StartsHighEnough c op := by
  cases hop : changedPath op with
  | none => simp [DominatesHeld, StartsHighEnough, call_remote hop, hop]
  | some relPath =>
    obtain ⟨change, hchange, hpath, hclock⟩ := call_change H c hop
    have hlaw : DominatesHeld H c op ↔ ∀ held ∈ c.heldClocks relPath,
        held.get < ((c.startClock op).increment c.localRegion).get := by
      simp only [DominatesHeld, hchange, Option.mem_some_iff, forall_eq', hpath, hclock,
        compare_eq_greater]
    rw [hlaw]
    simp only [StartsHighEnough, hop, Option.mem_some_iff, forall_eq']
    by_cases hroom : (c.startClock op).get c.localRegion < u64Max
    · simp only [lt_increment_iff hroom, hroom, true_and]
    · -- an exhausted counter belongs to a clock that is held, and the new one is behind it
      have hfull : u64Max ≤ (c.startClock op).get c.localRegion := by omega
      have hpos : 0 < u64Max := by decide
      have hheld := startClock_mem hop (Nat.lt_of_lt_of_le hpos hfull)
      simp only [hroom, false_and, iff_false]
      exact fun h => not_lt_increment hfull (h _ hheld)

/-- **Causality of local changes.** In a run of one coordinator, every change it records is newer than
everything it held for the path, exactly when every local change starts from a clock that is high
enough. -/
theorem along_dominatesHeld_iff (H : HashFn) (c : GeoReplicationCoordinator) (calls : List GeoCall) :
    Along H (DominatesHeld H) c calls ↔ Along H StartsHighEnough c calls := by
  induction calls generalizing c with
  | nil => exact Iff.rfl
  | cons op ops ih => exact and_congr (dominatesHeld_iff H c op) (ih _)

def recreate : List GeoCall :=
  [.mutation 1 "f" 3 .zero none, .deletion 2 "f", .mutation 3 "f" 4 .zero none]

/-- The second creation starts over at one, below the clock of the deletion. -/
theorem not_along_dominatesHeld_recreate :
    ¬ Along (fun _ => .zero) (DominatesHeld fun _ => .zero) (.new "us-east" .lastWriteWins [])
      recreate := by
  rintro ⟨-, -, h, -⟩
  have hgreater := h _ rfl _ (List.mem_singleton.mpr rfl)
  exact absurd hgreater (by decide)

end Velcrux.Sync
