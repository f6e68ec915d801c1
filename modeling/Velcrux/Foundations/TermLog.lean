import Mathlib

/-!
# Logs whose entries carry terms

Every term has one log, that of its leader. A log is rooted if each of its entries sits on what it
sits on in the log of its own term. Two rooted logs with entries of one term at one position agree
up to there.
-/

namespace TermLog

open List

variable {α : Type*} (term : α → ℕ)

def lastTerm (log : List α) : ℕ := (log.getLast?.map term).getD 0

def termAt (log : List α) (k : ℕ) : Option ℕ := log[k]?.map term

def Rooted (root : ℕ → List α) (log : List α) : Prop :=
  ∀ p e, p ++ [e] <+: log → p ++ [e] <+: root (term e)

def Ascending (log : List α) : Prop := log.Pairwise fun a b => term a ≤ term b

def UpToDate (log log' : List α) : Prop :=
  lastTerm term log' < lastTerm term log ∨
    lastTerm term log = lastTerm term log' ∧ log'.length ≤ log.length

def overlay : List α → ℕ → List α → List α
  | log, _, [] => log
  | log, k, e :: rest =>
    if k < log.length then
      if termAt term log k = some (term e) then overlay log (k + 1) rest
      else overlay (log.take k ++ [e]) (k + 1) rest
    else overlay (log ++ [e]) (k + 1) rest

variable {term} {root root' : ℕ → List α} {log log' : List α} {k : ℕ} {e : α}

theorem getElem?_of_below (h : log <+: log') (hk : log[k]? = some e) : log'[k]? = some e := by
  obtain ⟨rest, rfl⟩ := h
  rw [List.getElem?_append_left (List.getElem?_eq_some_iff.mp hk).1]
  exact hk

theorem lastTerm_concat (log : List α) (e : α) : lastTerm term (log ++ [e]) = term e := by
  rw [lastTerm, List.getLast?_concat]
  rfl

theorem Ascending.of_below (h : Ascending term log) (hpre : log' <+: log) : Ascending term log' :=
  List.Pairwise.sublist hpre.sublist h

theorem Ascending.concat (h : Ascending term log) (he : ∀ x ∈ log, term x ≤ term e) :
    Ascending term (log ++ [e]) := by
  refine pairwise_append.mpr ⟨h, pairwise_singleton _ _, fun a ha b hb => ?_⟩
  rw [mem_singleton.mp hb]
  exact he a ha

theorem Ascending.le_lastTerm (h : Ascending term log) (he : e ∈ log) :
    term e ≤ lastTerm term log := by
  rcases eq_nil_or_concat' log with rfl | ⟨init, last, rfl⟩
  · cases he
  · rw [lastTerm_concat]
    rcases mem_append.mp he with he | he
    · exact (pairwise_append.mp h).2.2 e he last (mem_singleton_self _)
    · rw [mem_singleton.mp he]

theorem Rooted.of_below (h : Rooted term root log) (hpre : log' <+: log) :
    Rooted term root log' := fun p e hp => h p e (hp.trans hpre)

theorem Rooted.mono (h : Rooted term root log) (hgrow : ∀ t, root t <+: root' t) :
    Rooted term root' log := fun p e hp => (h p e hp).trans (hgrow _)

theorem Rooted.concat (h : Rooted term root log) (he : log ++ [e] <+: root (term e)) :
    Rooted term root (log ++ [e]) := by
  intro p e' hp
  rcases prefix_concat_iff.mp hp with heq | hp
  · have hlast := append_inj' heq rfl
    obtain rfl := singleton_inj.mp hlast.2
    rw [heq]
    exact he
  · exact h p e' hp

theorem Rooted.prefix_root (h : Rooted term root (log ++ [e])) : log ++ [e] <+: root (term e) :=
  h log e prefix_rfl

theorem take_succ_of_termAt {t : ℕ} (h : termAt term log k = some t) :
    ∃ e, log.take (k + 1) = log.take k ++ [e] ∧ term e = t ∧ k < log.length := by
  rw [termAt, Option.map_eq_some_iff] at h
  obtain ⟨e, he, rfl⟩ := h
  obtain ⟨hk, hget⟩ := List.getElem?_eq_some_iff.mp he
  refine ⟨e, ?_, rfl, hk⟩
  rw [take_add_one, he]
  rfl

theorem Rooted.take_prefix {t : ℕ} (h : Rooted term root log) (ht : termAt term log k = some t) :
    log.take (k + 1) <+: root t := by
  obtain ⟨e, htake, rfl, -⟩ := take_succ_of_termAt ht
  rw [htake]
  exact h _ _ (htake ▸ List.take_prefix _ _)

theorem Rooted.matching {t : ℕ} (h : Rooted term root log) (h' : Rooted term root log')
    (ht : termAt term log k = some t) (ht' : termAt term log' k = some t) :
    log.take (k + 1) = log'.take (k + 1) := by
  obtain ⟨-, -, -, hk⟩ := take_succ_of_termAt ht
  obtain ⟨-, -, -, hk'⟩ := take_succ_of_termAt ht'
  have hlen : (log.take (k + 1)).length = (log'.take (k + 1)).length := by
    rw [length_take, length_take]
    omega
  rcases List.prefix_or_prefix_of_prefix (h.take_prefix ht) (h'.take_prefix ht') with hpre | hpre
  · exact hpre.eq_of_length hlen
  · exact (hpre.eq_of_length hlen.symm).symm

/-- A rooted log with an entry of term `t` and none of a later one is part of the log of `t`. -/
theorem Rooted.prefix_of_term {t : ℕ} (h : Rooted term root log) (hasc : Ascending term log)
    (hle : ∀ x ∈ log, term x ≤ t) (he : e ∈ log) (ht : term e = t) : log <+: root t := by
  rcases eq_nil_or_concat' log with rfl | ⟨init, last, rfl⟩
  · cases he
  · have hge : t ≤ term last := by
      have hend : lastTerm term (init ++ [last]) = term last := lastTerm_concat init last
      rw [← ht, ← hend]
      exact hasc.le_lastTerm he
    have hlast : term last = t :=
      le_antisymm (hle last (mem_append_right _ (mem_singleton_self _))) hge
    exact hlast ▸ h.prefix_root

theorem overlay_rest {full : List α} (hlog : log = full.take k) (rest : List α)
    (hrest : full.drop k = rest) : overlay term log k rest = full := by
  induction rest generalizing k log with
  | nil =>
    rw [overlay, hlog, take_of_length_le (drop_eq_nil_iff.mp hrest)]
  | cons e rest ih =>
    have hlen : ¬ k < log.length := by
      rw [hlog, length_take]
      omega
    have hget : full[k]? = some e := by
      rw [← List.head?_drop, hrest]
      rfl
    rw [overlay, if_neg hlen]
    refine ih ?_ ?_
    · rw [hlog, take_add_one, hget]
      rfl
    · rw [← tail_drop, hrest]
      rfl

/-- Overlaying with the rest of a log that agrees so far: the log stays if it has everything, and
becomes the other one if it has not. -/
theorem Rooted.overlay_eq {full : List α} (h : Rooted term root log) (hfull : Rooted term root full)
    (hk : k ≤ full.length) (hagree : log.take k = full.take k) (hklog : k ≤ log.length) :
    overlay term log k (full.drop k) = log ∧ full <+: log ∨
      overlay term log k (full.drop k) = full ∧ ¬ full <+: log := by
  generalize hrest : full.drop k = rest
  induction rest generalizing k with
  | nil =>
    refine .inl ⟨rfl, ?_⟩
    have hlen : full.length ≤ k := drop_eq_nil_iff.mp hrest
    rw [← take_of_length_le hlen, ← hagree]
    exact List.take_prefix _ _
  | cons e rest ih =>
    have hlt : k < full.length := by
      by_contra hge
      rw [drop_eq_nil_of_le (by omega)] at hrest
      cases hrest
    have hget : full[k]? = some e := by
      rw [← List.head?_drop, hrest]
      rfl
    have hterm : termAt term full k = some (term e) := by
      rw [termAt, hget]
      rfl
    have hrest' : full.drop (k + 1) = rest := by
      rw [← tail_drop, hrest]
      rfl
    rw [overlay]
    by_cases hk' : k < log.length
    · rw [if_pos hk']
      by_cases hsame : termAt term log k = some (term e)
      · -- the entry is there already
        rw [if_pos hsame]
        exact ih (by omega) (h.matching hfull hsame hterm) (by omega) hrest'
      · rw [if_neg hsame]
        have hlog : log.take k ++ [e] = full.take (k + 1) := by
          rw [hagree, take_add_one, hget]
          rfl
        refine .inr ⟨overlay_rest hlog rest hrest', fun hpre => hsame ?_⟩
        obtain ⟨tail, rfl⟩ := hpre
        rw [termAt, List.getElem?_append_left hlt]
        exact hterm
    · rw [if_neg hk']
      have hend : log = full.take k := by
        rw [← hagree, take_of_length_le (by omega)]
      have hlog : log ++ [e] = full.take (k + 1) := by
        rw [hend, take_add_one, hget]
        rfl
      refine .inr ⟨overlay_rest hlog rest hrest', fun hpre => ?_⟩
      have := hpre.length_le
      omega

end TermLog
