import Mathlib

/-!
# Items that arrive over several ordered streams

`Merges ss l`: the items of the streams `ss` can be processed in the order `l` when each stream
keeps its own order. `keepFirst key seen l` is `l` for a receiver that ignores duplicates of a key.
-/

namespace Streams

open List

variable {α κ : Type*}
variable {ss : List (List α)} {s l : List α}

inductive Merges : List (List α) → List α → Prop
  | done {ss : List (List α)} : (∀ s ∈ ss, s = []) → Merges ss []
  | next {ss : List (List α)} {k : ℕ} {a : α} {s l : List α} :
      ss[k]? = some (a :: s) → Merges (ss.set k s) l → Merges ss (a :: l)

theorem flatten_set_perm {k : ℕ} {a : α}
    (h : ss[k]? = some (a :: s)) : ss.flatten.Perm (a :: (ss.set k s).flatten) := by
  induction ss generalizing k with
  | nil => simp at h
  | cons t ts ih =>
    cases k with
    | zero =>
      obtain rfl : t = a :: s := by simpa using h
      simp
    | succ k =>
      have := ih (by simpa using h)
      simpa using (this.append_left t).trans perm_middle

theorem Merges.perm (h : Merges ss l) : l.Perm ss.flatten := by
  induction h with
  | done h => rw [flatten_eq_nil_iff.mpr h]
  | next hk _ ih => exact (ih.cons _).trans (flatten_set_perm hk).symm

theorem Merges.whole_stream_first {k : ℕ}
    (hk : ss[k]? = some s) (h : Merges (ss.set k []) l) : Merges ss (s ++ l) := by
  induction s generalizing ss with
  | nil =>
    have hset : ss.set k [] = ss := by
      refine ext_getElem? fun i => ?_
      by_cases hi : k = i
      · subst hi
        rw [hk]
        exact List.getElem?_set_self (List.getElem?_eq_some_iff.mp hk).1
      · simp [hi]
    rwa [hset] at h
  | cons a s ih =>
    refine .next hk (ih ?_ ?_)
    · exact List.getElem?_set_self (List.getElem?_eq_some_iff.mp hk).1
    · simpa using h

theorem merges_flatten (ss : List (List α)) : Merges ss ss.flatten := by
  have key : ∀ (n : ℕ) (ts : List (List α)),
      Merges (List.replicate n [] ++ ts) ts.flatten := by
    intro n ts
    induction ts generalizing n with
    | nil => exact .done (by simp)
    | cons t ts ih =>
      refine Merges.whole_stream_first (k := n) (by simp) ?_
      have := ih (n + 1)
      simpa [replicate_succ'] using this
  simpa using key 0 ss

section KeepFirst

variable [DecidableEq κ]

def keepFirst (key : α → κ) (seen : Finset κ) : List α → List α
  | [] => []
  | a :: l =>
    if key a ∈ seen then keepFirst key seen l else a :: keepFirst key (insert (key a) seen) l

end KeepFirst

end Streams
