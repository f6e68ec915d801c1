import Velcrux.Sync.Proofs.ReplicationProofs
import Velcrux.TxSnapshot.Catalog

/-!
# Both vector clocks decide the pointwise order

Both comparisons are the pointwise order of clocks and both merges their supremum, but
`is_concurrent` also compares the maps themselves, in which a counter of zero may be written out.
-/

namespace Velcrux

open Sync TxSnapshot TxVectorClock

def Reports (f g : String → ℕ) : ClockOrdering → Prop
  | .equal => f = g
  | .greater => g < f
  | .less => f < g
  | .concurrent => ¬ f ≤ g ∧ ¬ g ≤ f

def MergeLaws {C : Type} (get : C → String → ℕ) (merge : C → C → C) (a b c : C) : Prop :=
  IsLUB {get a, get b} (get (merge a b)) ∧ get (merge a b) = get (merge b a) ∧
    get (merge (merge a b) c) = get (merge a (merge b c)) ∧ get (merge a a) = get a

theorem mergeLaws_of_sup {C : Type} {get : C → String → ℕ} {merge : C → C → C}
    (h : ∀ a b, get (merge a b) = get a ⊔ get b) (a b c : C) : MergeLaws get merge a b c := by
  simp only [MergeLaws, h]
  exact ⟨isLUB_pair, sup_comm .., sup_assoc .., sup_idem _⟩

namespace Sync.VectorClock

theorem compare_eq_iff (a b : VectorClock) (o : ClockOrdering) :
    a.compare b = o ↔ Reports a.get b.get o := by
  obtain ⟨g, l, hg, hl, h⟩ := compare_flags a b
  rw [h]
  cases o <;> simp only [Reports, le_antisymm_iff, lt_iff_le_not_ge, hg, hl] <;>
    cases g <;> cases l <;> simp

end Sync.VectorClock

namespace TxSnapshot.TxVectorClock

variable (x y z : TxVectorClock)

def counter (node : String) : ℕ := (x.get node).toNat

theorem mem_entries {x : TxVectorClock} {e : String × UInt64} (h : e ∈ x.clock.entries) :
    x.get e.1 = e.2 := by
  rw [get, (x.clock.mem_entries_iff).mp h]
  rfl

theorem get_cases (node : String) :
    (node, x.get node) ∈ x.clock.entries ∨ x.clock.get? node = none ∧ x.get node = 0 := by
  cases h : x.clock.get? node with
  | none => exact .inr ⟨rfl, by rw [get, h]; rfl⟩
  | some v => exact .inl (x.clock.mem_entries_iff.mpr (by rw [get, h]; rfl))

theorem counter_foldl_le {node : String} {b : ℕ} (entries : List (String × UInt64)) :
    (entries.foldl (fun vc x => ⟨vc.clock.insert x.1 (max x.2 (vc.get x.1))⟩) x).counter node ≤ b ↔
      x.counter node ≤ b ∧ ∀ e ∈ entries, e.1 = node → e.2.toNat ≤ b := by
  induction entries generalizing x with
  | nil => simp
  | cons e entries ih =>
    rw [List.foldl_cons, ih, List.forall_mem_cons, ← and_assoc]
    refine and_congr_left fun _ => ?_
    by_cases he : e.1 = node
    · simp only [counter, get, SortedMap.get?_insert, he, if_true, Option.getD_some, forall_const,
        UInt64.toNat_max]
      omega
    · simp [counter, get, SortedMap.get?_insert, he]

theorem counter_merge : (x.merge y).counter = x.counter ⊔ y.counter := by
  funext node
  refine eq_of_forall_ge_iff fun b => ?_
  rw [Pi.sup_apply, sup_le_iff, merge, updateMax, counter_foldl_le]
  refine and_congr_right fun _ => ⟨fun h => ?_, ?_⟩
  · rcases y.get_cases node with hmem | ⟨-, hzero⟩
    · exact h _ hmem rfl
    · simp [counter, hzero]
  · rintro h e he rfl
    rwa [counter, mem_entries he] at h

theorem isCausallyBefore_iff : x.isCausallyBefore y = true ↔ x.counter < y.counter := by
  have hle : (x.clock.entries.any fun e => y.get e.1 < e.2) = false ↔ x.counter ≤ y.counter := by
    simp only [List.any_eq_false, decide_eq_true_eq, UInt64.lt_iff_toNat_lt, not_lt]
    refine ⟨fun h node => ?_, fun h e he => ?_⟩
    · rcases x.get_cases node with hmem | ⟨-, hzero⟩
      · exact h _ hmem
      · simp [counter, hzero]
    · rw [← mem_entries he]
      exact h e.1
  have hlt : ((x.clock.entries.any fun e => e.2 < y.get e.1) ||
      y.clock.entries.any fun e => (x.clock.get? e.1).isNone && 0 < e.2) = true ↔
        ∃ node, x.counter node < y.counter node := by
    simp only [Bool.or_eq_true, List.any_eq_true, decide_eq_true_eq, Bool.and_eq_true,
      Option.isNone_iff_eq_none, UInt64.lt_iff_toNat_lt]
    constructor
    · rintro (⟨e, he, hlt⟩ | ⟨e, he, hnone, hpos⟩)
      · exact ⟨e.1, by rwa [counter, mem_entries he]⟩
      · refine ⟨e.1, ?_⟩
        rwa [counter, counter, mem_entries he, get, hnone]
    · rintro ⟨node, hlt⟩
      rcases x.get_cases node with hmem | ⟨hnone, hzero⟩
      · exact .inl ⟨_, hmem, hlt⟩
      rcases y.get_cases node with hmem | ⟨-, hzero'⟩
      · exact .inr ⟨_, hmem, hnone, by rwa [counter, hzero] at hlt⟩
      · simp [counter, hzero, hzero'] at hlt
  rw [isCausallyBefore, Bool.and_eq_true, Bool.not_eq_true', hle, hlt, Pi.lt_def]

theorem isConcurrent_iff : x.isConcurrent y = true ↔
    ¬ x.counter < y.counter ∧ ¬ y.counter < x.counter ∧ x ≠ y := by
  have hne : x ≠ y ↔ x.clock.entries ≠ y.clock.entries := by
    rw [ne_eq, ne_eq, ← SortedMap.ext_iff]
    exact not_congr ⟨fun h => h ▸ rfl, fun h => by cases x; congr⟩
  rw [isConcurrent, hne, ← isCausallyBefore_iff, ← isCausallyBefore_iff]
  simp [and_assoc]

end TxSnapshot.TxVectorClock

/-- **Both clocks** decide the pointwise order and merge to the least upper bound, exactly if the two
transaction clocks do not differ in zeros only. -/
theorem clocks_decide_iff (a b c : VectorClock) (x y z : TxVectorClock) :
    ((∀ o, a.compare b = o ↔ Reports a.get b.get o) ∧
      MergeLaws VectorClock.get VectorClock.merge a b c ∧
      (x.isCausallyBefore y = true ↔ Reports x.counter y.counter .less) ∧
      (y.isCausallyBefore x = true ↔ Reports x.counter y.counter .greater) ∧
      (x.isConcurrent y = true ↔ Reports x.counter y.counter .concurrent) ∧
      MergeLaws counter merge x y z) ↔
      (x.counter = y.counter → x = y) := by
  have hconcurrent : (x.isConcurrent y = true ↔ Reports x.counter y.counter .concurrent) ↔
      (x.counter = y.counter → x = y) := by
    rw [isConcurrent_iff, Reports, lt_iff_le_not_ge, lt_iff_le_not_ge,
      le_antisymm_iff]
    have heq : x = y → x.counter ≤ y.counter ∧ y.counter ≤ x.counter := by
      rintro rfl
      exact ⟨le_rfl, le_rfl⟩
    tauto
  rw [hconcurrent]
  refine ⟨fun h => h.2.2.2.2.1, fun h => ⟨a.compare_eq_iff b, ?_, ?_, ?_, h, ?_⟩⟩
  · exact mergeLaws_of_sup VectorClock.get_merge a b c
  · exact x.isCausallyBefore_iff y
  · exact y.isCausallyBefore_iff x
  · exact mergeLaws_of_sup counter_merge x y z

/-- A counter of zero that is written out makes equal clocks concurrent. -/
theorem isConcurrent_zero : ∃ x y : TxVectorClock, x.counter = y.counter ∧ x.isConcurrent y = true := by
  refine ⟨⟨.insert .empty "a" 0⟩, .new, ?_, by decide⟩
  funext node
  simp only [TxVectorClock.counter, TxVectorClock.get, SortedMap.get?_insert]
  split_ifs <;> rfl

end Velcrux
