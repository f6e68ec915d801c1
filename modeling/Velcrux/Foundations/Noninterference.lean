import Mathlib

/-!
# Noninterference by unwinding

A principal `t` is not interfered with by a principal `u` when what a deterministic machine answers
to `t` does not depend on the calls of `u`. The rule: a relation on states that a call of `u` cannot
leave, that every other call keeps, and that fixes the answers to `t`. The second part is about
tables of which an observer sees some rows only.
-/

namespace Noninterference

open List

variable {σ ι κ ρ : Type*} [DecidableEq ι]

def view (step : σ → ι × κ → σ × ρ) (t : ι) : σ → List (ι × κ) → List ρ
  | _, [] => []
  | s, c :: cs =>
    let later := view step t (step s c).1 cs
    if c.1 = t then (step s c).2 :: later else later

def purge (u : ι) (cs : List (ι × κ)) : List (ι × κ) := cs.filter (·.1 ≠ u)

structure Unwinding (step : σ → ι × κ → σ × ρ) (t u : ι) (R : σ → σ → Prop) : Prop where
  hidden : ∀ {s s' : σ} {c : ι × κ}, c.1 = u → R s s' → R (step s c).1 s'
  kept : ∀ {s s' : σ} {c : ι × κ}, c.1 ≠ u → R s s' → R (step s c).1 (step s' c).1
  same : ∀ {s s' : σ} {c : ι × κ}, c.1 = t → R s s' → (step s c).2 = (step s' c).2

variable {step : σ → ι × κ → σ × ρ} {t u : ι} {R : σ → σ → Prop}

theorem Unwinding.view_purge (h : Unwinding step t u R) (htu : t ≠ u) {s s' : σ} (hR : R s s')
    (cs : List (ι × κ)) : view step t s cs = view step t s' (purge u cs) := by
  induction cs generalizing s s' with
  | nil => rfl
  | cons c cs ih =>
    by_cases hc : c.1 = u
    · have hct : c.1 ≠ t := fun h => htu (h.symm.trans hc)
      have hp : purge u (c :: cs) = purge u cs := by simp [purge, hc]
      rw [hp, ← ih (h.hidden hc hR)]
      simp [view, hct]
    · have hp : purge u (c :: cs) = c :: purge u cs := by simp [purge, hc]
      rw [hp]
      simp only [view, ih (h.kept hc hR)]
      split_ifs with hct
      · rw [h.same hct hR]
      · rfl

theorem Unwinding.view_eq (h : Unwinding step t u R) (htu : t ≠ u) {s : σ} (hR : R s s)
    {cs cs' : List (ι × κ)} (hcs : purge u cs = purge u cs') :
    view step t s cs = view step t s cs' := by
  rw [h.view_purge htu hR cs, hcs, h.view_purge htu hR cs']

section Tables

variable {α β : Type*} [DecidableEq β] {key : α → β} {visible : α → Bool} {l l' : List α} {a : α}

theorem find?_key_eq_some (hnodup : (l.map key).Nodup) (ha : a ∈ l) :
    l.find? (fun b => key b = key a) = some a := by
  induction l with
  | nil => cases ha
  | cons b l ih =>
    rw [map_cons, nodup_cons] at hnodup
    rcases mem_cons.mp ha with rfl | hmem
    · simp
    · have hne : key b ≠ key a := fun he =>
        hnodup.1 (he ▸ mem_map_of_mem hmem)
      rw [List.find?_cons_of_neg (by simpa using hne)]
      exact ih hnodup.2 hmem

theorem find?_key_of_visible (hsame : l.filter visible = l'.filter visible)
    (hnodup : (l'.map key).Nodup) (ha : a ∈ l) (hv : visible a = true) :
    l'.find? (fun b => key b = key a) = some a := by
  have hmem : a ∈ l'.filter visible := hsame ▸ mem_filter.mpr ⟨ha, hv⟩
  exact find?_key_eq_some hnodup (mem_of_mem_filter hmem)

variable {r : α → α → Prop} [DecidableRel r]

theorem filter_orderedInsert [IsTrans α r] (p : α → Bool) (a : α) {l : List α} (hl : l.Pairwise r) :
    (l.orderedInsert r a).filter p =
      if p a then (l.filter p).orderedInsert r a else l.filter p := by
  induction l with
  | nil => cases hp : p a <;> simp [hp]
  | cons b l ih =>
    rw [pairwise_cons] at hl
    by_cases hab : r a b
    · -- everything from here on is above `a`, so `a` also comes first among what is kept
      have hhead : ∀ c ∈ (b :: l).filter p, r a c := by
        intro c hc
        rcases mem_cons.mp (mem_of_mem_filter hc) with rfl | hmem
        · exact hab
        · exact trans_of r hab (hl.1 c hmem)
      rw [orderedInsert_cons, if_pos hab, filter_cons]
      split_ifs with hp
      · cases hk : (b :: l).filter p with
        | nil => rfl
        | cons c cs =>
          rw [orderedInsert_cons, if_pos (hhead c (by rw [hk]; exact mem_cons_self))]
      · rfl
    · rw [orderedInsert_cons, if_neg hab, filter_cons, ih hl.2, filter_cons]
      by_cases hb : p b = true
      · split_ifs with hp
        · rw [orderedInsert_cons, if_neg hab]
        · rfl
      · simp only [hb, Bool.false_eq_true, if_false]

theorem filter_insertionSort [IsTrans α r] [Std.Total r] (p : α → Bool) (l : List α) :
    (l.insertionSort r).filter p = (l.filter p).insertionSort r := by
  induction l with
  | nil => rfl
  | cons a l ih =>
    rw [insertionSort_cons, filter_orderedInsert p a (pairwise_insertionSort r l), ih,
      filter_cons]
    split_ifs <;> rfl

end Tables

end Noninterference
