import Mathlib

/-!
# Leases of a readers and writer lock

The leases that are held, as a multiset: the order in which a table keeps them does not matter here.
A table moves by giving leases up and by granting one under a new token.
-/

namespace Lease

open Multiset

variable {R : Type*}

structure Held (R : Type*) where
  resource : R
  exclusive : Bool
  token : ℕ

def Excludes [DecidableEq R] (held : Multiset (Held R)) (r : R) : Prop :=
  (∀ h ∈ held, h.resource = r → h.exclusive = false) ∨
    ∃ h, held.filter (fun h => h.resource = r) = {h} ∧ h.exclusive = true

def Compatible (new : Held R) (held : Multiset (Held R)) : Prop :=
  ∀ h ∈ held, h.resource = new.resource → new.exclusive = false ∧ h.exclusive = false

inductive Move (issue : ℕ → ℕ) : Multiset (Held R) × ℕ → Multiset (Held R) × ℕ → Prop
  | giveUp {held held' : Multiset (Held R)} {c : ℕ} (hle : held' ≤ held) :
    Move issue (held, c) (held', c)
  | grant {held rest : Multiset (Held R)} {c : ℕ} {new : Held R} (hle : rest ≤ held)
      (hcompatible : Compatible new rest) (htoken : new.token = issue c) :
    Move issue (held, c) (new ::ₘ rest, new.token)

def Distinct (held : Multiset (Held R)) : Prop := (held.map Held.token).Nodup

def Within (held : Multiset (Held R)) (c : ℕ) : Prop := ∀ h ∈ held, h.token ≤ c

variable {held held' : Multiset (Held R)} {c : ℕ} {new : Held R}

theorem Within.mono {c' : ℕ} (hw : Within held c) (hle : held' ≤ held) (hc : c ≤ c') :
    Within held' c' := by
  intro h hh
  exact (hw h (mem_of_le hle hh)).trans hc

theorem Distinct.mono (hd : Distinct held) (hle : held' ≤ held) : Distinct held' :=
  nodup_of_le (map_le_map hle) hd

theorem Distinct.cons (hd : Distinct held) (hw : Within held c) (hnew : c < new.token) :
    Distinct (new ::ₘ held) := by
  rw [Distinct, map_cons, nodup_cons]
  refine ⟨fun hmem => ?_, hd⟩
  obtain ⟨h, hh, htoken⟩ := mem_map.mp hmem
  have := hw h hh
  omega

theorem Within.cons (hw : Within held c) (hnew : c < new.token) :
    Within (new ::ₘ held) new.token := by
  intro h hh
  rcases mem_cons.mp hh with rfl | hh
  · exact le_rfl
  · exact (hw h hh).trans hnew.le

section Exclusion

variable [DecidableEq R] {r : R}

theorem Excludes.mono (he : Excludes held r) (hle : held' ≤ held) : Excludes held' r := by
  rcases he with hshared | ⟨h, hfilter, hexclusive⟩
  · exact .inl fun h hh => hshared h (mem_of_le hle hh)
  · have hsub : held'.filter (fun h => h.resource = r) ≤ {h} :=
      hfilter ▸ filter_le_filter _ hle
    rcases le_singleton.mp hsub with hnone | hone
    · refine .inl fun h' hh' hr => ?_
      exact absurd hr (filter_eq_nil.mp hnone h' hh')
    · exact .inr ⟨h, hone, hexclusive⟩

theorem Excludes.cons (he : Excludes held r) (hc : Compatible new held) :
    Excludes (new ::ₘ held) r := by
  by_cases hr : new.resource = r
  · cases hexclusive : new.exclusive with
    | true =>
      -- an exclusive lease is granted only on a resource with no lease
      have hnone : held.filter (fun h => h.resource = r) = 0 := by
        refine filter_eq_nil.mpr fun h hh hhr => ?_
        have := (hc h hh (hhr.trans hr.symm)).1
        simp [hexclusive] at this
      exact .inr ⟨new, by simp [hr, hnone], hexclusive⟩
    | false =>
      refine .inl fun h hh hhr => ?_
      rcases mem_cons.mp hh with rfl | hh
      · exact hexclusive
      · exact (hc h hh (hhr.trans hr.symm)).2
  · rcases he with hshared | ⟨h, hfilter, hexclusive⟩
    · refine .inl fun h hh hhr => ?_
      rcases mem_cons.mp hh with rfl | hh
      · exact absurd hhr hr
      · exact hshared h hh hhr
    · exact .inr ⟨h, by simp [hr, hfilter], hexclusive⟩

variable {issue : ℕ → ℕ} {s s' : Multiset (Held R) × ℕ}

theorem Move.excludes (hmove : Move issue s s') (he : Excludes s.1 r) : Excludes s'.1 r := by
  cases hmove with
  | giveUp hle => exact he.mono hle
  | grant hle hcompatible _ => exact (he.mono hle).cons hcompatible

end Exclusion

variable {issue : ℕ → ℕ} {s s' : Multiset (Held R) × ℕ}

theorem Move.distinct (hmove : Move issue s s') (hissue : issue s.2 ≠ s.2) (hup : s.2 ≤ s'.2)
    (hd : Distinct s.1) (hw : Within s.1 s.2) : Distinct s'.1 ∧ Within s'.1 s'.2 := by
  cases hmove with
  | giveUp hle => exact ⟨hd.mono hle, hw.mono hle le_rfl⟩
  | grant hle _ htoken =>
    have hnew := lt_of_le_of_ne hup (htoken ▸ hissue.symm)
    exact ⟨(hd.mono hle).cons (hw.mono hle le_rfl) hnew, (hw.mono hle le_rfl).cons hnew⟩

end Lease
