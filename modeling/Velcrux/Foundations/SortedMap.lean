import Mathlib

/-!
# Maps sorted by key

A finite map as the list of its entries with ascending keys. Inserting under a key that is there
replaces the value. Two maps with the same values are equal.
-/

@[ext] structure SortedMap (κ α : Type*) [LinearOrder κ] where
  entries : List (κ × α)
  sorted : entries.Pairwise fun x y => x.1 < y.1
deriving DecidableEq

namespace SortedMap

open List

variable {κ α : Type*} [LinearOrder κ]

def empty : SortedMap κ α := ⟨[], .nil⟩

def insertEntry (k : κ) (v : α) : List (κ × α) → List (κ × α)
  | [] => [(k, v)]
  | (k', v') :: entries =>
    if k < k' then (k, v) :: (k', v') :: entries
    else if k = k' then (k, v) :: entries
    else (k', v') :: insertEntry k v entries

theorem mem_insertEntry {k : κ} {v : α} {entries : List (κ × α)} {x : κ × α}
    (h : x ∈ insertEntry k v entries) : x = (k, v) ∨ x ∈ entries := by
  induction entries with
  | nil => exact .inl (mem_singleton.mp h)
  | cons y entries ih =>
    rw [insertEntry] at h
    split_ifs at h with hlt heq
    · exact mem_cons.mp h
    · exact (mem_cons.mp h).imp_right (mem_cons_of_mem y)
    · rcases mem_cons.mp h with rfl | h
      · exact .inr mem_cons_self
      · exact (ih h).imp_right (mem_cons_of_mem y)

theorem pairwise_insertEntry {k : κ} {v : α} {entries : List (κ × α)}
    (h : entries.Pairwise fun x y => x.1 < y.1) :
    (insertEntry k v entries).Pairwise fun x y => x.1 < y.1 := by
  induction entries with
  | nil => exact pairwise_singleton _ _
  | cons y entries ih =>
    obtain ⟨hy, hrest⟩ := pairwise_cons.mp h
    rw [insertEntry]
    split_ifs with hlt heq
    · refine pairwise_cons.mpr ⟨fun x hx => ?_, h⟩
      rcases mem_cons.mp hx with rfl | hx
      · exact hlt
      · exact hlt.trans (hy x hx)
    · exact pairwise_cons.mpr ⟨fun x hx => heq ▸ hy x hx, hrest⟩
    · refine pairwise_cons.mpr ⟨fun x hx => ?_, ih hrest⟩
      rcases mem_insertEntry hx with rfl | hx
      · exact lt_of_le_of_ne (not_lt.mp hlt) (Ne.symm heq)
      · exact hy x hx

variable (m : SortedMap κ α) (k : κ)

def insert (v : α) : SortedMap κ α :=
  ⟨insertEntry k v m.entries, pairwise_insertEntry m.sorted⟩

def get? : Option α := (m.entries.find? fun x => x.1 = k).map Prod.snd

def erase : SortedMap κ α :=
  ⟨m.entries.filter fun x => x.1 ≠ k, m.sorted.filter _⟩

def keys : List κ := m.entries.map Prod.fst

def last? : Option (κ × α) := m.entries.getLast?

variable (m : SortedMap κ α) {k k' : κ} {v : α}

@[simp] theorem get?_empty : (empty : SortedMap κ α).get? k = none := rfl

theorem mem_entries_iff : (k, v) ∈ m.entries ↔ m.get? k = some v := by
  have hfind : ∀ entries : List (κ × α), entries.Pairwise (fun x y => x.1 < y.1) →
      ((k, v) ∈ entries ↔ (entries.find? fun x => x.1 = k).map Prod.snd = some v) := by
    intro entries hsorted
    induction entries with
    | nil => simp
    | cons y entries ih =>
      obtain ⟨hy, hrest⟩ := pairwise_cons.mp hsorted
      by_cases hk : y.1 = k
      · have hlater : (k, v) ∉ entries := fun hmem => absurd (hy _ hmem) (by simp [hk])
        have hfirst : ((y :: entries).find? fun x => x.1 = k) = some y := by simp [hk]
        rw [mem_cons, hfirst]
        constructor
        · rintro (rfl | hmem)
          · rfl
          · exact absurd hmem hlater
        · intro h
          exact .inl (Prod.ext hk.symm (Option.some.inj h).symm)
      · have hne : (k, v) ≠ y := fun h => hk (h ▸ rfl)
        rw [mem_cons, List.find?_cons_of_neg (by simpa using hk), or_iff_right hne]
        exact ih hrest
  exact hfind m.entries m.sorted

theorem find?_insertEntry (entries : List (κ × α)) :
    ((insertEntry k v entries).find? fun x => x.1 = k').map Prod.snd =
      if k = k' then some v else (entries.find? fun x => x.1 = k').map Prod.snd := by
  induction entries with
  | nil => by_cases hk : k = k' <;> simp [insertEntry, hk]
  | cons y entries ih =>
    rw [insertEntry]
    by_cases hlt : k < y.1
    · rw [if_pos hlt]
      by_cases hk : k = k' <;> simp [hk]
    · rw [if_neg hlt]
      by_cases heq : k = y.1
      · by_cases hk : k = k' <;> simp [hk, ← heq]
      · rw [if_neg heq]
        by_cases hy : y.1 = k'
        · have hk : k ≠ k' := fun h => heq (h.trans hy.symm)
          simp [hy, hk]
        · rw [List.find?_cons_of_neg (by simpa using hy), ih,
            List.find?_cons_of_neg (by simpa using hy)]

theorem get?_insert : (m.insert k v).get? k' = if k = k' then some v else m.get? k' :=
  find?_insertEntry m.entries

theorem get?_foldl_insert {β : Type*} (key : β → κ) (value : β → α) (xs : List β)
    (m : SortedMap κ α) :
    (xs.foldl (fun m x => m.insert (key x) (value x)) m).get? k =
      ((xs.reverse.find? fun x => key x = k).map value).or (m.get? k) := by
  induction xs generalizing m with
  | nil => simp
  | cons x xs ih =>
    rw [foldl_cons, ih, get?_insert, reverse_cons, List.find?_append]
    cases hfind : xs.reverse.find? fun x => key x = k with
    | some y => simp
    | none => by_cases hk : key x = k <;> simp [hk]

theorem get?_erase : (m.erase k).get? k' = if k = k' then none else m.get? k' := by
  by_cases hk : k = k'
  · have hnone : ∀ v, (m.erase k).get? k' ≠ some v := by
      intro v hv
      have hmem := (mem_filter.mp ((mem_entries_iff _).mpr hv)).2
      exact absurd hk.symm (by simpa using hmem)
    rw [if_pos hk]
    exact Option.eq_none_iff_forall_ne_some.mpr hnone
  · rw [if_neg hk]
    refine Option.ext fun v => ?_
    rw [← mem_entries_iff, ← mem_entries_iff, erase, mem_filter]
    have hne : decide ((k', v).1 ≠ k) = true := by simpa using Ne.symm hk
    exact and_iff_left hne

theorem last?_of_greatest (hmem : m.get? k = some v) (hle : ∀ k' v', m.get? k' = some v' → k' ≤ k) :
    m.last? = some (k, v) := by
  have hentry := (mem_entries_iff m).mpr hmem
  have hne : m.entries ≠ [] := ne_nil_of_mem hentry
  have hlast : m.last? = some (m.entries.getLast hne) := List.getLast?_eq_some_getLast hne
  have hbound : (m.entries.getLast hne).1 ≤ k :=
    hle _ (m.entries.getLast hne).2 ((mem_entries_iff m).mp (getLast_mem hne))
  have hsplit : m.entries.dropLast ++ [m.entries.getLast hne] = m.entries :=
    dropLast_concat_getLast hne
  have hbelow : ∀ x ∈ m.entries.dropLast, x.1 < (m.entries.getLast hne).1 := by
    intro x hx
    have hsorted := m.sorted
    rw [← hsplit] at hsorted
    exact (pairwise_append.mp hsorted).2.2 x hx _ (mem_singleton_self _)
  rw [← hsplit] at hentry
  rcases mem_append.mp hentry with hx | hx
  · exact absurd (hbelow _ hx) (not_lt.mpr hbound)
  · rw [hlast, ← mem_singleton.mp hx]

end SortedMap
