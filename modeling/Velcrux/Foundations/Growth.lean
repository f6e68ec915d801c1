import Velcrux.Foundations.ByteFile

/-!
# Files that only grow

A file that is written piece by piece never shrinks, so it stays within a bound exactly when no
piece reaches past the bound. The last section counts the bytes of a file divided into slots.
-/

namespace ByteFile

section Moments

variable {σ α : Type*} {f : σ → α → σ} {P : σ → Prop}

theorem forall_mem_scanl_iff (hback : ∀ s a, P (f s a) → P s) (s : σ) (as : List α) :
    (∀ t ∈ as.scanl f s, P t) ↔ P (as.foldl f s) := by
  induction as generalizing s with
  | nil => simp
  | cons a as ih =>
    rw [List.scanl_cons, List.forall_mem_cons, ih]
    constructor
    · intro h
      exact h.2
    · intro h
      have hstart : ∀ (bs : List α) (t : σ), P (bs.foldl f t) → P t := by
        intro bs
        induction bs with
        | nil => exact fun _ ht => ht
        | cons b bs ihb => exact fun t ht => hback t b (ihb _ ht)
      exact ⟨hback s a (hstart as _ h), h⟩

theorem foldl_mem_scanl (f : σ → α → σ) (s : σ) (as : List α) : as.foldl f s ∈ as.scanl f s := by
  induction as generalizing s with
  | nil => simp
  | cons a as ih =>
    rw [List.scanl_cons]
    exact List.mem_cons_of_mem _ (ih _)

end Moments

section Bound

variable {α : Type*} [OfNat α 0]

def EndsWithin {α : Type*} (n : ℕ) (p : ℕ × List α) : Prop := p.2 = [] ∨ p.1 + p.2.length ≤ n

instance {α : Type*} (n : ℕ) (p : ℕ × List α) : Decidable (EndsWithin n p) :=
  inferInstanceAs (Decidable (_ ∨ _))

theorem length_writeAt_le_iff {f : List α} {p : ℕ × List α} {n : ℕ} :
    (writeAt f p.1 p.2).length ≤ n ↔ f.length ≤ n ∧ EndsWithin n p := by
  by_cases hp : p.2 = []
  · simp [EndsWithin, hp]
  · rw [length_writeAt hp]
    simp [EndsWithin, hp]

theorem length_writeAll_le_iff {f : List α} {ps : List (ℕ × List α)} {n : ℕ} :
    (writeAll f ps).length ≤ n ↔ f.length ≤ n ∧ ∀ p ∈ ps, EndsWithin n p := by
  induction ps generalizing f with
  | nil => simp
  | cons p ps ih =>
    rw [writeAll_cons, ih, length_writeAt_le_iff, List.forall_mem_cons, and_assoc]

end Bound

def slotLen (d n i : ℕ) : ℕ := min (n - i * d) d

theorem sum_slotLen_le (d n : ℕ) (s : Finset ℕ) : ∑ i ∈ s, slotLen d n i ≤ n := by
  have hrange : ∀ k, ∑ i ∈ Finset.range k, slotLen d n i ≤ min n (k * d) := by
    intro k
    induction k with
    | zero => simp
    | succ k ih =>
      rw [Finset.sum_range_succ, Nat.succ_mul]
      unfold slotLen at ih ⊢
      omega
  obtain ⟨k, hk⟩ : ∃ k, s ⊆ Finset.range k := s.exists_nat_subset_range
  calc ∑ i ∈ s, slotLen d n i
      ≤ ∑ i ∈ Finset.range k, slotLen d n i := Finset.sum_le_sum_of_subset hk
    _ ≤ min n (k * d) := hrange k
    _ ≤ n := min_le_left _ _

end ByteFile
