import Velcrux.Foundations.ByteFile

/-!
# Cutting an input into consecutive pieces

A *cutter* looks at one cell at a time and says whether a piece ends there. Its run does not depend
on how the input was split into read buffers (`scan_append`). A *cut* of a file is a list of pieces
at increasing, non-overlapping places, each with the cells the file has there.
-/

namespace Cutting

open List

variable {σ α : Type*}
variable {s : σ} {pend xs p : List α} {ps : List (List α)} {off : ℕ} {c d : ℕ × List α}

section Cutter

/-- Run the cutter over the input. `pend` holds the cells of the piece in progress; the result is the
final state, the finished pieces and the cells of the last, unfinished one. -/
def scan (step : σ → α → σ × Bool) (s : σ) (pend : List α) : List α → σ × List (List α) × List α
  | [] => (s, [], pend)
  | a :: as =>
    if (step s a).2 then
      let r := scan step (step s a).1 [] as
      (r.1, (pend ++ [a]) :: r.2.1, r.2.2)
    else scan step (step s a).1 (pend ++ [a]) as

variable (step : σ → α → σ × Bool)

theorem scan_append (s : σ) (pend xs ys : List α) :
    scan step s pend (xs ++ ys) =
      let r := scan step s pend xs
      let r' := scan step r.1 r.2.2 ys
      (r'.1, r.2.1 ++ r'.2.1, r'.2.2) := by
  induction xs generalizing s pend with
  | nil => rfl
  | cons a as ih =>
    simp only [cons_append, scan]
    split_ifs with h
    · simp [ih]
    · exact ih _ _

theorem scan_flatten (s : σ) (pend xs : List α) :
    (scan step s pend xs).2.1.flatten ++ (scan step s pend xs).2.2 = pend ++ xs := by
  induction xs generalizing s pend with
  | nil => simp [scan]
  | cons a as ih =>
    simp only [scan]
    split_ifs with h
    · simp only [flatten_cons, append_assoc, ih]
      simp
    · rw [ih]
      simp

theorem ne_nil_of_mem_scan (h : p ∈ (scan step s pend xs).2.1) : p ≠ [] := by
  induction xs generalizing s pend with
  | nil => simp [scan] at h
  | cons a as ih =>
    simp only [scan] at h
    split_ifs at h with hc
    · rcases mem_cons.mp h with rfl | h
      · simp
      · exact ih h
    · exact ih h

def pieces (s : σ) (xs : List α) : List (List α) :=
  let r := scan step s [] xs
  if r.2.2 = [] then r.2.1 else r.2.1 ++ [r.2.2]

theorem pieces_flatten (s : σ) (xs : List α) : (pieces step s xs).flatten = xs := by
  have h := scan_flatten step s [] xs
  unfold pieces
  dsimp only
  split_ifs with hr
  · simpa [hr] using h
  · simpa using h

theorem ne_nil_of_mem_pieces (h : p ∈ pieces step s xs) : p ≠ [] := by
  unfold pieces at h
  dsimp only at h
  split_ifs at h with hr
  · exact ne_nil_of_mem_scan step h
  · rcases mem_append.mp h with h | h
    · exact ne_nil_of_mem_scan step h
    · rw [mem_singleton.mp h]
      exact hr

/-- Pieces stay within a bound when the state knows the length of the piece in progress and cuts
before it passes the bound. -/
theorem length_le_of_mem_pieces {n : ℕ} {I : σ → ℕ → Prop} (hlt : ∀ s k, I s k → k < n)
    (hcut : ∀ s k a, I s k → (step s a).2 = true → I (step s a).1 0)
    (hgrow : ∀ s k a, I s k → (step s a).2 = false → I (step s a).1 (k + 1))
    (h0 : I s 0) (hp : p ∈ pieces step s xs) : p.length ≤ n := by
  have hscan : ∀ (xs : List α) (s : σ) (pend : List α), I s pend.length →
      (∀ p ∈ (scan step s pend xs).2.1, p.length ≤ n) ∧ (scan step s pend xs).2.2.length < n := by
    intro xs
    induction xs with
    | nil => exact fun s pend hI => ⟨by simp [scan], hlt _ _ hI⟩
    | cons a as ih =>
      intro s pend hI
      have hpend := hlt _ _ hI
      simp only [scan]
      split_ifs with hc
      · obtain ⟨h1, h2⟩ := ih (step s a).1 [] (hcut _ _ _ hI hc)
        refine ⟨fun p hp => ?_, h2⟩
        rcases mem_cons.mp hp with rfl | hp
        · simp only [length_append, length_singleton]
          omega
        · exact h1 p hp
      · refine ih (step s a).1 (pend ++ [a]) ?_
        simpa using hgrow _ _ _ hI (by simpa using hc)
  obtain ⟨h1, h2⟩ := hscan xs s [] h0
  unfold pieces at hp
  dsimp only at hp
  split_ifs at hp
  · exact h1 p hp
  · rcases mem_append.mp hp with hp | hp
    · exact h1 p hp
    · rw [mem_singleton.mp hp]
      omega

theorem pieces_append_of_scan (h : (scan step s [] xs).2.2 = []) (ys : List α) :
    pieces step s (xs ++ ys) = (scan step s [] xs).2.1 ++ pieces step (scan step s [] xs).1 ys := by
  simp only [pieces, scan_append, h]
  split_ifs <;> simp

theorem scan_congr {Z : σ → σ → Prop}
    (hZ : ∀ s t a, Z s t → (step s a).2 = (step t a).2 ∧ Z (step s a).1 (step t a).1)
    {t : σ} (h : Z s t) (pend xs : List α) : (scan step s pend xs).2 = (scan step t pend xs).2 := by
  induction xs generalizing s t pend with
  | nil => rfl
  | cons a as ih =>
    obtain ⟨hcut, hnext⟩ := hZ s t a h
    simp only [scan, hcut]
    split_ifs
    · simp only [ih hnext]
    · exact ih hnext _

theorem pieces_congr {Z : σ → σ → Prop}
    (hZ : ∀ s t a, Z s t → (step s a).2 = (step t a).2 ∧ Z (step s a).1 (step t a).1)
    {t : σ} (h : Z s t) (xs : List α) : pieces step s xs = pieces step t xs := by
  simp only [pieces, scan_congr step hZ h]

/-- A property of the state that holds at the start, and again after every cut, holds whenever no
piece is in progress. -/
theorem scan_rested {I R : σ → Prop} (hI : ∀ s a, I s → I (step s a).1)
    (hcut : ∀ s a, I s → (step s a).2 = true → R (step s a).1) (hs : I s) (hR : pend = [] → R s)
    (h : (scan step s pend xs).2.2 = []) : R (scan step s pend xs).1 := by
  induction xs generalizing s pend with
  | nil => exact hR h
  | cons a as ih =>
    simp only [scan] at h ⊢
    split_ifs at h ⊢ with hc
    · exact ih (hI s a hs) (fun _ => hcut s a hs hc) h
    · exact ih (hI s a hs) (by simp) h

theorem lt_length_head_scan (hne : xs ≠ [])
    (h : (let r := scan step s pend xs; if r.2.2 = [] then r.2.1 else r.2.1 ++ [r.2.2]) = p :: ps) :
    pend.length < p.length := by
  induction xs generalizing s pend with
  | nil => exact absurd rfl hne
  | cons a as ih =>
    simp only [scan] at h
    by_cases hc : (step s a).2 = true
    · split_ifs at h <;> simp at h <;> simp [← h.1]
    · simp only [hc] at h
      by_cases has : as = []
      · subst has
        simp [scan] at h
        simp [← h.1]
      · have := ih has h
        simp at this
        omega

end Cutter

open ByteFile

/-! ## Cuts of a file -/

def layOut (off : ℕ) : List (List α) → List (ℕ × List α)
  | [] => []
  | p :: ps => (off, p) :: layOut (off + p.length) ps

theorem mem_of_mem_layOut (h : c ∈ layOut off ps) : c.2 ∈ ps := by
  induction ps generalizing off with
  | nil => simp [layOut] at h
  | cons p ps ih =>
    rcases mem_cons.mp h with rfl | h
    · exact mem_cons_self
    · exact mem_cons_of_mem _ (ih h)

theorem bounds_of_mem_layOut
    (h : c ∈ layOut off ps) : off ≤ c.1 ∧ c.1 + c.2.length ≤ off + ps.flatten.length := by
  induction ps generalizing off with
  | nil => simp [layOut] at h
  | cons p ps ih =>
    simp only [flatten_cons, length_append]
    rcases mem_cons.mp h with rfl | h
    · exact ⟨Nat.le_refl _, by dsimp only; omega⟩
    · have := ih h
      omega

theorem layOut_add (off k : ℕ) (ps : List (List α)) :
    layOut (off + k) ps = (layOut off ps).map fun c => (c.1 + k, c.2) := by
  induction ps generalizing off with
  | nil => rfl
  | cons p ps ih =>
    rw [layOut, layOut, map_cons, ← ih, Nat.add_right_comm]

structure Cut (src : List α) (cs : List (ℕ × List α)) : Prop where
  pieceOf : ∀ c ∈ cs, PieceOf src c
  inside : ∀ c ∈ cs, c.1 + c.2.length ≤ src.length
  nonempty : ∀ c ∈ cs, c.2 ≠ []
  sorted : cs.Pairwise fun a b => a.1 + a.2.length ≤ b.1

namespace Cut

variable {src : List α} {cs : List (ℕ × List α)}

theorem nil : Cut src [] := ⟨by simp, by simp, by simp, List.Pairwise.nil⟩

theorem pos (h : Cut src cs) (hc : c ∈ cs) : 0 < c.2.length :=
  length_pos_iff.mpr (h.nonempty c hc)

end Cut

theorem cut_layOut_aux {src : List α} (hne : ∀ p ∈ ps, p ≠ [])
    (hsrc : src.drop off = ps.flatten) (hoff : off ≤ src.length) :
    Cut src (layOut off ps) ∧ ∀ c ∈ layOut off ps, off ≤ c.1 := by
  induction ps generalizing off with
  | nil => exact ⟨Cut.nil, by simp [layOut]⟩
  | cons p ps ih =>
    have hlen : src.length - off = p.length + ps.flatten.length := by
      simpa using congrArg List.length hsrc
    have hdrop : src.drop (off + p.length) = ps.flatten := by
      rw [← drop_drop, hsrc]
      simp
    obtain ⟨hcut, hge⟩ := ih (fun q hq => hne q (mem_cons_of_mem _ hq)) hdrop (by omega)
    have hhead : PieceOf src (off, p) := by
      simp [PieceOf, slice, hsrc]
    refine ⟨⟨?_, ?_, ?_, ?_⟩, ?_⟩
    · rintro c (_ | ⟨_, hc⟩)
      · exact hhead
      · exact hcut.pieceOf c hc
    · rintro c (_ | ⟨_, hc⟩)
      · dsimp only; omega
      · exact hcut.inside c hc
    · rintro c (_ | ⟨_, hc⟩)
      · exact hne p mem_cons_self
      · exact hcut.nonempty c hc
    · exact List.Pairwise.cons (fun c hc => hge c hc) hcut.sorted
    · rintro c (_ | ⟨_, hc⟩)
      · exact Nat.le_refl _
      · have := hge c hc
        omega

theorem cut_layOut (hne : ∀ p ∈ ps, p ≠ []) : Cut ps.flatten (layOut 0 ps) :=
  (cut_layOut_aux hne (by simp) (Nat.zero_le _)).1

theorem exists_covers_layOut {i : ℕ} (h1 : off ≤ i)
    (h2 : i < off + ps.flatten.length) : ∃ c ∈ layOut off ps, Covers c i := by
  induction ps generalizing off with
  | nil => simp at h2; omega
  | cons p ps ih =>
    by_cases h : i < off + p.length
    · exact ⟨(off, p), mem_cons_self, h1, h⟩
    · have hlen : (p :: ps).flatten.length = p.length + ps.flatten.length := by simp
      obtain ⟨c, hc, hci⟩ := ih (show off + p.length ≤ i by omega) (by omega)
      exact ⟨c, mem_cons_of_mem _ hc, hci⟩

@[simp] theorem map_snd_layOut (off : ℕ) (ps : List (List α)) :
    (layOut off ps).map Prod.snd = ps := by
  induction ps generalizing off with
  | nil => rfl
  | cons p ps ih => simp [layOut, ih]

theorem layOut_append (off : ℕ) (ps qs : List (List α)) :
    layOut off (ps ++ qs) = layOut off ps ++ layOut (off + ps.flatten.length) qs := by
  induction ps generalizing off with
  | nil => simp [layOut]
  | cons p ps ih => simp [layOut, ih, Nat.add_assoc]

theorem scan_rest_eq_nil_of_cut {step : σ → α → σ × Bool} {ys : List α} (hys : ys ≠ []) (hc : c ∈ layOut 0 (pieces step s (xs ++ ys)))
    (hend : c.1 + c.2.length = xs.length) : (scan step s [] xs).2.2 = [] := by
  by_contra hrest
  have hflat := congrArg List.length (scan_flatten step s [] xs)
  have hpos := length_pos_iff.mpr hrest
  simp only [length_append, nil_append] at hflat
  -- the pieces finished within `xs` end before its end, the others behind it
  set later := (let r := scan step (scan step s [] xs).1 (scan step s [] xs).2.2 ys
    if r.2.2 = [] then r.2.1 else r.2.1 ++ [r.2.2]) with hlater
  have hsplit : pieces step s (xs ++ ys) = (scan step s [] xs).2.1 ++ later := by
    simp only [pieces, scan_append, hlater]
    split_ifs <;> simp
  rw [hsplit, layOut_append, mem_append] at hc
  rcases hc with hc | hc
  · have := bounds_of_mem_layOut hc
    omega
  · cases hps : later with
    | nil => simp [hps, layOut] at hc
    | cons p ps =>
      have hp := lt_length_head_scan step hys (hlater ▸ hps)
      rw [hps] at hc
      rcases mem_cons.mp hc with rfl | hc
      · dsimp only at hend
        omega
      · have := bounds_of_mem_layOut hc
        omega

end Cutting
