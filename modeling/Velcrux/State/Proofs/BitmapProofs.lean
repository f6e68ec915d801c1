import Velcrux.State.Bitmap

/-!
# The chunk bitmap

`firstMissingFrom` returns the least index from the given one on that is not in the set; it can only
give up at the end of the `u64` range. The running total is the sum of the lengths over the set.
-/

namespace Velcrux.State.ChunkBitmap

open Finset

variable {b : ChunkBitmap} {i : ℕ}

theorem firstMissingLoop_spec {fuel j : ℕ}
    (hf : (b.set.filter (i ≤ ·)).card ≤ fuel) (h : b.firstMissingLoop fuel i = some j) :
    i ≤ j ∧ j ∉ b.set ∧ ∀ k, i ≤ k → k < j → k ∈ b.set := by
  induction fuel generalizing i with
  | zero =>
    obtain rfl : i = j := by simpa [firstMissingLoop] using h
    have hempty : b.set.filter (i ≤ ·) = ∅ := card_eq_zero.mp (by omega)
    refine ⟨le_refl _, fun hi => ?_, fun k h1 h2 => by omega⟩
    have : i ∈ b.set.filter (i ≤ ·) := by simp [hi]
    simp [hempty] at this
  | succ fuel ih =>
    rw [firstMissingLoop] at h
    by_cases hi : b.contains i = true
    · rw [if_pos hi] at h
      by_cases hm : saturatingAdd i 1 = u64Max
      · simp [hm] at h
      rw [if_neg hm] at h
      have hlt : saturatingAdd i 1 = i + 1 := by
        unfold saturatingAdd at hm ⊢
        omega
      rw [hlt] at h
      have hsub : b.set.filter (i + 1 ≤ ·) ⊂ b.set.filter (i ≤ ·) := by
        refine Finset.ssubset_iff_subset_ne.mpr ⟨fun k hk => ?_, fun he => ?_⟩
        · simp only [Finset.mem_filter] at hk ⊢
          exact ⟨hk.1, by omega⟩
        · have : i ∈ b.set.filter (i + 1 ≤ ·) := by
            rw [he]
            simpa using hi
          have := (mem_filter.mp this).2
          omega
      have hcard := card_lt_card hsub
      obtain ⟨h1, h2, h3⟩ := ih (by omega) h
      refine ⟨by omega, h2, fun k hk1 hk2 => ?_⟩
      rcases Nat.eq_or_lt_of_le hk1 with rfl | hk1
      · exact contains_iff.mp hi
      · exact h3 k hk1 hk2
    · rw [if_neg hi] at h
      obtain rfl : i = j := by simpa using h
      exact ⟨le_refl _, fun h' => hi (contains_iff.mpr h'), fun k h1 h2 => by omega⟩

theorem firstMissingFrom_spec {j : ℕ} (h : b.firstMissingFrom i = some j) :
    i ≤ j ∧ j ∉ b.set ∧ ∀ k, i ≤ k → k < j → k ∈ b.set :=
  firstMissingLoop_spec (card_le_card (filter_subset _ _)) h

theorem firstMissingLoop_none {fuel : ℕ} (hi : i < u64Max)
    (h : b.firstMissingLoop fuel i = none) : ∀ k, i ≤ k → k < u64Max → k ∈ b.set := by
  induction fuel generalizing i with
  | zero => simp [firstMissingLoop] at h
  | succ fuel ih =>
    rw [firstMissingLoop] at h
    by_cases hc : b.contains i = true
    · rw [if_pos hc] at h
      have hs : saturatingAdd i 1 = i + 1 := by unfold saturatingAdd; omega
      rw [hs] at h
      intro k hk1 hk2
      rcases Nat.eq_or_lt_of_le hk1 with rfl | hk1
      · exact contains_iff.mp hc
      · by_cases hm : i + 1 = u64Max
        · omega
        · rw [if_neg hm] at h
          exact ih (by omega) h k hk1 hk2
    · simp [hc] at h

theorem firstMissingFrom_none (hi : i < u64Max)
    (h : b.firstMissingFrom i = none) : ∀ k, i ≤ k → k < u64Max → k ∈ b.set :=
  firstMissingLoop_none hi h

def markAll (b : ChunkBitmap) (ms : List (ℕ × ℕ)) : ChunkBitmap :=
  ms.foldl (fun b m => b.markComplete m.1 m.2) b

theorem mem_set_markAll {ms : List (ℕ × ℕ)} :
    i ∈ (b.markAll ms).set ↔ i ∈ b.set ∨ ∃ m ∈ ms, m.1 = i := by
  induction ms generalizing b with
  | nil => simp [markAll]
  | cons m ms ih =>
    have hrest : i ∈ ((b.markComplete m.1 m.2).markAll ms).set ↔ _ := ih
    rw [set_markComplete, mem_insert] at hrest
    refine hrest.trans ?_
    rw [List.exists_mem_cons_iff]
    tauto

def Totals (f : ℕ → ℕ) (b : ChunkBitmap) : Prop :=
  b.bytesCompleted = min (∑ i ∈ b.set, f i) u64Max

theorem Totals.markComplete {f : ℕ → ℕ} (h : b.Totals f) (i : ℕ) :
    (b.markComplete i (f i)).Totals f := by
  unfold ChunkBitmap.markComplete
  split_ifs with hi
  · exact h
  · show min (b.bytesCompleted + f i) u64Max = min (∑ j ∈ insert i b.set, f j) u64Max
    rw [sum_insert hi, h]
    omega

theorem Totals.markAll {f : ℕ → ℕ} (h : b.Totals f) {ms : List (ℕ × ℕ)}
    (hms : ∀ m ∈ ms, m.2 = f m.1) : (b.markAll ms).Totals f := by
  induction ms generalizing b with
  | nil => exact h
  | cons m ms ih =>
    have hstep := h.markComplete m.1
    rw [← hms m List.mem_cons_self] at hstep
    exact ih hstep fun d hd => hms d (List.mem_cons_of_mem _ hd)

end Velcrux.State.ChunkBitmap
