import Velcrux.Foundations.Raft

/-!
# Safety of leaders and replicated logs

A term has one leader, the logs are rooted in those of the leaders, and a log that has been taken
over stays until a leader is elected without it. So a leader of a later term has whatever was chosen
in an earlier one.
-/

namespace Raft

open TermLog List

variable {ι α : Type} {termOf : α → ℕ} {members : Finset ι}
variable {base : List α} {w v : ι} {x : ι × List α}

/-! ## Invariants -/

structure LogOk (termOf : α → ℕ) (g : Record ι α) (log : List α) (t : ℕ) : Prop where
  rooted : Rooted termOf g.root log
  ascending : Ascending termOf log
  bound : ∀ e ∈ log, termOf e ≤ t

def Kept (g : Record ι α) (t n : ℕ) (log : List α) (u : ℕ) : Prop :=
  (g.root t).take n <+: log ∨
    ∃ t' w base, t < t' ∧ t' ≤ u ∧ g.elected t' = some (w, base) ∧ ¬ (g.root t).take n <+: base

structure BaseOk (termOf : α → ℕ) (g : Record ι α) (t : ℕ) (base : List α) : Prop where
  earlier : ∀ e ∈ base, termOf e < t
  below : base <+: g.root t
  shorter : base.length < (g.root t).length
  own : ∀ k, base.length ≤ k → k < (g.root t).length → termAt termOf (g.root t) k = some t

structure CastOk (termOf : α → ℕ) (members : Finset ι) (g : Record ι α) (v : ι) (t : ℕ) (c : ι)
    (log : List α) : Prop where
  member : v ∈ members
  logOk : LogOk termOf g log t
  upToDate : ∃ log', g.campaign c t = some log' ∧ UpToDate termOf log' log
  kept : ∀ u n, u < t → n ≤ g.acked v u → Kept g u n log t

structure ElectedOk (members : Finset ι) (g : Record ι α) (t : ℕ) (w : ι) (base : List α) : Prop where
  campaign : g.campaign w t = some base
  votes : ∃ q, Majority members q ∧ ∀ v ∈ q, ∃ log, g.cast v t = some (w, log) ∧
    ∀ u n, u < t → n ≤ g.acked v u → Kept g u n log (t - 1)

structure RecordOk (termOf : α → ℕ) (members : Finset ι) (g : Record ι α) : Prop where
  root : ∀ t, LogOk termOf g (g.root t) t
  unelected : ∀ t, g.elected t = none → g.root t = []
  base : ∀ t w base, g.elected t = some (w, base) → BaseOk termOf g t base
  cast : ∀ v t c log, g.cast v t = some (c, log) → CastOk termOf members g v t c log
  campaign : ∀ c t log, g.campaign c t = some log →
    LogOk termOf g log t ∧ (∀ e ∈ log, termOf e < t) ∧ g.cast c t = some (c, log)
  elected : ∀ t w base, g.elected t = some (w, base) → ElectedOk members g t w base
  acked : ∀ v t, g.acked v t ≤ (g.root t).length

def Committed (termOf : α → ℕ) (members : Finset ι) (g : Record ι α) (k : ℕ) (log : List α) (t : ℕ) :
    Prop :=
  k = 0 ∨ ∃ u m, u ≤ t ∧ Chosen termOf members g u m ∧ k ≤ m ∧ (g.root u).take k <+: log

structure NodeOk (termOf : α → ℕ) (members : Finset ι) (g : Record ι α) (i : ι) (n : Node ι α) :
    Prop where
  log : LogOk termOf g n.log n.term
  leader : n.role = .leader → (∃ base, g.elected n.term = some (i, base)) ∧ n.log = g.root n.term ∧
    g.acked i n.term = n.log.length
  vote : ∀ c, n.vote = some c ↔ ∃ log, g.cast i n.term = some (c, log)
  future : ∀ t, n.term < t → g.cast i t = none ∧ g.campaign i t = none ∧ g.acked i t = 0
  candidate : n.role = .candidate → g.campaign i n.term = some n.log ∧
    (∀ v ∈ n.votes, ∃ log, g.cast v n.term = some (i, log)) ∧ ∀ base, g.elected n.term ≠ some (i, base)
  kept : ∀ t k, k ≤ g.acked i t → Kept g t k n.log n.term
  commit : n.commit ≤ n.log.length ∧ Committed termOf members g n.commit n.log n.term

structure Inv (termOf : α → ℕ) (members : Finset ι) (a : State ι α) : Prop where
  record : RecordOk termOf members a.record
  node : ∀ i, NodeOk termOf members a.record i (a.node i)

variable {g g' : Record ι α} {i j : ι} {n n' : Node ι α} {t u k m : ℕ} {log log' : List α}

/-! ## Completeness of leaders -/

theorem RecordOk.elected_of_chosen (hrecord : RecordOk termOf members g)
    (hchosen : Chosen termOf members g t m) : ∃ w base, g.elected t = some (w, base) := by
  cases helected : g.elected t with
  | some x => exact ⟨x.1, x.2, rfl⟩
  | none =>
    obtain ⟨-, hterm, -⟩ := hchosen
    rw [hrecord.unelected t helected] at hterm
    cases hterm

/-- A log that is up to date with one that has a chosen entry has it, if the leaders of the terms
between have. -/
theorem prefix_of_upToDate (hrecord : RecordOk termOf members g)
    (hterm : termAt termOf (g.root t) (m - 1) = some t) (hm : 0 < m)
    (hlog : Ascending termOf log) (hpre : (g.root t).take m <+: log)
    (hbase : LogOk termOf g base u) (hup : UpToDate termOf base log)
    (hlater : ∀ t' w base', t < t' → t' ≤ u → g.elected t' = some (w, base') →
      (g.root t).take m <+: base') : (g.root t).take m <+: base := by
  -- the entry in question, at the end of what was chosen
  obtain ⟨e, htake, rfl, hlt⟩ := take_succ_of_termAt hterm
  rw [Nat.sub_add_cancel hm] at htake
  have he : e ∈ log := hpre.subset (htake ▸ mem_append_right _ (mem_singleton_self _))
  have hle : termOf e ≤ lastTerm termOf log := hlog.le_lastTerm he
  rcases eq_nil_or_concat' base with rfl | ⟨init, last, rfl⟩
  · -- an empty log is not up to date with any other
    rcases hup with hup | ⟨-, hup⟩
    · exact absurd hup (Nat.not_lt_zero _)
    · rw [eq_nil_of_length_eq_zero (Nat.le_zero.mp hup)] at he
      cases he
  have hlast : lastTerm termOf (init ++ [last]) = termOf last := lastTerm_concat init last
  have hroot : init ++ [last] <+: g.root (termOf last) := hbase.rooted.prefix_root
  have hge : termOf e ≤ termOf last := by
    rcases hup with hup | ⟨hup, -⟩
    · omega
    · omega
  rcases hge.eq_or_lt with heq | hlt'
  · -- both logs end in the chosen term, where they are parts of one log
    have hlen' : log.length ≤ (init ++ [last]).length := by
      rcases hup with hup | ⟨-, hup⟩
      · omega
      · exact hup
    rw [← heq] at hroot
    have hle' := hpre.length_le
    refine prefix_of_prefix_length_le (List.take_prefix _ _) hroot ?_
    omega
  · -- the last entry is of a later leader, who has what was chosen below all its entries
    cases helected : g.elected (termOf last) with
    | none =>
      rw [hrecord.unelected _ helected] at hroot
      exact absurd (prefix_nil.mp hroot) (by simp)
    | some x =>
      obtain ⟨w, base'⟩ := x
      have hu : termOf last ≤ u :=
        hbase.bound last (mem_append_right _ (mem_singleton_self _))
      have hhas := hlater _ w base' hlt' hu helected
      have hbelow := (hrecord.base _ w base' helected).below
      refine prefix_of_prefix_length_le (hhas.trans hbelow) hroot ?_
      by_contra hshort
      -- otherwise the last entry would lie among those of earlier terms
      have hin : init ++ [last] <+: base' := by
        refine prefix_of_prefix_length_le hroot hbelow ?_
        have := hhas.length_le
        omega
      have hmem : last ∈ base' :=
        hin.subset (mem_append_right _ (mem_singleton_self _))
      exact absurd ((hrecord.base _ w base' helected).earlier last hmem) (lt_irrefl _)

section

variable [DecidableEq ι]

/-- Leader completeness: who is elected in a later term has whatever was chosen. -/
theorem RecordOk.complete (hrecord : RecordOk termOf members g) (hchosen : Chosen termOf members g t m)
    (hlt : t < u) (helected : g.elected u = some (w, base)) : (g.root t).take m <+: base := by
  obtain ⟨hm, hterm, q, hq, hacked⟩ := hchosen
  induction u using Nat.strong_induction_on generalizing w base with
  | _ u ih =>
    obtain ⟨hcampaign, q', hq', hvotes⟩ := hrecord.elected u w base helected
    -- somebody has taken the log over and voted for the leader
    obtain ⟨v, hv, hv'⟩ := hq.inter hq'
    obtain ⟨log, hcast, hkept⟩ := hvotes v hv'
    obtain ⟨-, hlogOk, ⟨log', hcampaign', hup⟩, -⟩ := hrecord.cast v u w log hcast
    rw [hcampaign] at hcampaign'
    obtain rfl := Option.some.inj hcampaign'
    have hpre : (g.root t).take m <+: log := by
      rcases hkept t m hlt (hacked v hv) with hpre | ⟨t', w', base', hlt', hle', hel', hnot⟩
      · exact hpre
      · exact absurd (ih t' (by omega) hlt' hel') hnot
    obtain ⟨hbaseOk, hearlier, -⟩ := hrecord.campaign w u base hcampaign
    have hbase : LogOk termOf g base (u - 1) :=
      ⟨hbaseOk.rooted, hbaseOk.ascending, fun e he => by have := hearlier e he; omega⟩
    exact prefix_of_upToDate hrecord hterm hm hlogOk.ascending hpre hbase hup
      fun t' w' base' h1 h2 h3 => ih t' (by omega) h1 h3

theorem RecordOk.complete_root (hrecord : RecordOk termOf members g)
    (hchosen : Chosen termOf members g t m) (hle : t ≤ u)
    (helected : g.elected u = some (w, base)) : (g.root t).take m <+: g.root u := by
  rcases hle.eq_or_lt with rfl | hlt
  · exact take_prefix _ _
  · exact (hrecord.complete hchosen hlt helected).trans (hrecord.base u w base helected).below

end

/-! ## Growing records -/

structure Record.Le (g g' : Record ι α) : Prop where
  root : ∀ t, g.root t <+: g'.root t
  elected : ∀ t x, g.elected t = some x → g'.elected t = some x
  cast : ∀ v t x, g.cast v t = some x → g'.cast v t = some x
  campaign : ∀ c t x, g.campaign c t = some x → g'.campaign c t = some x
  acked : ∀ v t, g.acked v t ≤ g'.acked v t

theorem Record.Le.refl (g : Record ι α) : g.Le g :=
  ⟨fun _ => prefix_rfl, fun _ _ h => h, fun _ _ _ h => h, fun _ _ _ h => h, fun _ _ => le_rfl⟩

theorem Record.Le.trans {g1 g2 g3 : Record ι α} (h : g1.Le g2) (h' : g2.Le g3) : g1.Le g3 :=
  ⟨fun t => (h.root t).trans (h'.root t), fun t x hx => h'.elected t x (h.elected t x hx),
    fun v t x hx => h'.cast v t x (h.cast v t x hx),
    fun c t x hx => h'.campaign c t x (h.campaign c t x hx),
    fun v t => (h.acked v t).trans (h'.acked v t)⟩

theorem Record.Le.take_root (h : g.Le g') (hk : k ≤ (g.root u).length) :
    (g'.root u).take k = (g.root u).take k := by
  obtain ⟨rest, hrest⟩ := h.root u
  rw [← hrest, take_append_of_le_length hk]

theorem Record.Le.termAt_root (h : g.Le g') (hk : k < (g.root u).length) :
    termAt termOf (g'.root u) k = termAt termOf (g.root u) k := by
  obtain ⟨rest, hrest⟩ := h.root u
  rw [termAt, termAt, ← hrest, getElem?_append_left hk]

theorem Record.Le.chosen (hx : g.Le g') (h : Chosen termOf members g u m) :
    Chosen termOf members g' u m := by
  obtain ⟨hm, hterm, q, hq, hacked⟩ := h
  refine ⟨hm, ?_, q, hq, fun v hv => (hacked v hv).trans (hx.acked v u)⟩
  obtain ⟨-, -, -, hlt⟩ := take_succ_of_termAt hterm
  rw [hx.termAt_root hlt]
  exact hterm

structure Extends (g g' : Record ι α) (i : ι) (t : ℕ) : Prop where
  root : ∀ u, g.root u <+: g'.root u
  root_other : ∀ u, g'.root u ≠ g.root u → u = t ∧ ∃ base, g'.elected t = some (i, base)
  elected : ∀ u x, g.elected u = some x → g'.elected u = some x
  elected_new : ∀ u x, g'.elected u = some x → g.elected u = some x ∨ u = t ∧ x.1 = i
  others : ∀ j, j ≠ i → g'.cast j = g.cast j ∧ g'.campaign j = g.campaign j ∧ g'.acked j = g.acked j
  cast : ∀ u x, g.cast i u = some x → g'.cast i u = some x
  campaign : ∀ u x, g.campaign i u = some x → g'.campaign i u = some x
  past : ∀ u, u ≠ t → g'.cast i u = g.cast i u ∧ g'.campaign i u = g.campaign i u ∧
    g'.acked i u = g.acked i u
  acked : g.acked i t ≤ g'.acked i t

theorem BaseOk.congr (hroot : g'.root u = g.root u) (h : BaseOk termOf g u base) :
    BaseOk termOf g' u base :=
  ⟨h.earlier, by rw [hroot]; exact h.below, by rw [hroot]; exact h.shorter,
    by rw [hroot]; exact h.own⟩

namespace Extends

variable (hx : Extends g g' i t)
include hx

theorem cast_mono (h : g.cast v u = some x) : g'.cast v u = some x := by
  by_cases hv : v = i
  · subst hv
    exact hx.cast u x h
  · rw [(hx.others v hv).1]
    exact h

theorem campaign_mono {c : ι} {x : List α} (h : g.campaign c u = some x) :
    g'.campaign c u = some x := by
  by_cases hc : c = i
  · subst hc
    exact hx.campaign u x h
  · rw [(hx.others c hc).2.1]
    exact h

theorem acked_mono (v : ι) : g.acked v u ≤ g'.acked v u := by
  by_cases hv : v = i
  · subst hv
    by_cases hu : u = t
    · subst hu
      exact hx.acked
    · rw [(hx.past u hu).2.2]
  · rw [(hx.others v hv).2.2]

theorem acked_other (h : v ≠ i ∨ u ≠ t) : g'.acked v u = g.acked v u := by
  by_cases hv : v = i
  · subst hv
    exact (hx.past u (h.resolve_left (not_not_intro rfl))).2.2
  · rw [(hx.others v hv).2.2]

theorem le : g.Le g' :=
  ⟨hx.root, hx.elected, fun _ _ _ h => hx.cast_mono h, fun _ _ _ h => hx.campaign_mono h,
    fun v _ => hx.acked_mono v⟩

theorem logOk (h : LogOk termOf g log u) : LogOk termOf g' log u :=
  ⟨h.rooted.mono hx.root, h.ascending, h.bound⟩

theorem kept (hk : k ≤ (g.root u).length) (h : Kept g u k log m) : Kept g' u k log m := by
  rw [Kept, hx.le.take_root hk]
  rcases h with h | ⟨t', w, base, h1, h2, h3, h4⟩
  · exact .inl h
  · exact .inr ⟨t', w, base, h1, h2, hx.elected _ _ h3, h4⟩

theorem committed (hle : u ≤ m) (hpre : log <+: log') (h : Committed termOf members g k log u) :
    Committed termOf members g' k log' m := by
  rcases h with hzero | ⟨t', m', ht', hchosen, hm, htake⟩
  · exact .inl hzero
  · refine .inr ⟨t', m', ht'.trans hle, hx.le.chosen hchosen, hm, ?_⟩
    obtain ⟨-, -, -, hlt⟩ := take_succ_of_termAt hchosen.2.1
    rw [hx.le.take_root (by omega)]
    exact htake.trans hpre

theorem nodeOk (hrecord : RecordOk termOf members g) (hj : j ≠ i)
    (h : NodeOk termOf members g j n) : NodeOk termOf members g' j n := by
  obtain ⟨hcast, hcampaign, hacked⟩ := hx.others j hj
  refine ⟨hx.logOk h.log, fun hrole => ?_, fun c => ?_, fun u hu => ?_, fun hrole => ?_,
    fun u k hk => ?_, h.commit.1, hx.committed le_rfl prefix_rfl h.commit.2⟩
  · obtain ⟨⟨base, hbase⟩, hlog, hlen⟩ := h.leader hrole
    refine ⟨⟨base, hx.elected _ _ hbase⟩, ?_, by rw [hacked]; exact hlen⟩
    -- only its own leader changes the log of a term
    by_contra hne
    have hchange : g'.root n.term ≠ g.root n.term := fun heq => hne (hlog.trans heq.symm)
    obtain ⟨ht, base', hbase'⟩ := hx.root_other _ hchange
    have := hx.elected _ _ hbase
    rw [ht, hbase'] at this
    exact hj (congrArg Prod.fst (Option.some.inj this)).symm
  · rw [hcast]
    exact h.vote c
  · rw [hcast, hcampaign, hacked]
    exact h.future u hu
  · obtain ⟨hcamp, hvotes, hnot⟩ := h.candidate hrole
    refine ⟨by rw [hcampaign]; exact hcamp, fun v hv => ?_, fun base hbase => ?_⟩
    · obtain ⟨log, hlog⟩ := hvotes v hv
      exact ⟨log, hx.cast_mono hlog⟩
    · rcases hx.elected_new _ _ hbase with hold | ⟨-, hwinner⟩
      · exact hnot base hold
      · exact hj hwinner
  · rw [hacked] at hk
    exact hx.kept (hk.trans (hrecord.acked j u)) (h.kept u k hk)

theorem castOk (hrecord : RecordOk termOf members g) {c : ι}
    (hpast : v = i → u ≤ t) (h : CastOk termOf members g v u c log) :
    CastOk termOf members g' v u c log := by
  obtain ⟨log', hcampaign, hup⟩ := h.upToDate
  refine ⟨h.member, hx.logOk h.logOk, ⟨log', hx.campaign_mono hcampaign, hup⟩, fun u' k hu' hk => ?_⟩
  have hsame : g'.acked v u' = g.acked v u' := by
    refine hx.acked_other ?_
    by_cases hv : v = i
    · have := hpast hv
      exact .inr (by omega)
    · exact .inl hv
  rw [hsame] at hk
  exact hx.kept (hk.trans (hrecord.acked v u')) (h.kept u' k hu' hk)

theorem electedOk (hrecord : RecordOk termOf members g)
    (hpast : ∀ x, g.cast i u = some x → u ≤ t) (h : ElectedOk members g u w base) :
    ElectedOk members g' u w base := by
  obtain ⟨q, hq, hvotes⟩ := h.votes
  refine ⟨hx.campaign_mono h.campaign, q, hq, fun v hv => ?_⟩
  obtain ⟨log, hcast, hkept⟩ := hvotes v hv
  refine ⟨log, hx.cast_mono hcast, fun u' k hu' hk => ?_⟩
  have hsame : g'.acked v u' = g.acked v u' := by
    refine hx.acked_other ?_
    by_cases hv : v = i
    · subst hv
      have := hpast _ hcast
      exact .inr (by omega)
    · exact .inl hv
  rw [hsame] at hk
  exact hx.kept (hk.trans (hrecord.acked v u')) (hkept u' k hu' hk)

theorem root_of_ne (hu : u ≠ t) : g'.root u = g.root u := by
  by_contra hne
  exact hu (hx.root_other u hne).1

theorem elected_of_ne (hu : u ≠ t) (h : g'.elected u = some x) : g.elected u = some x :=
  (hx.elected_new u x h).resolve_right fun hnew => hu hnew.1

theorem recordOk (hrecord : RecordOk termOf members g) (hpast : ∀ u x, g.cast i u = some x → u ≤ t)
    (hroot : LogOk termOf g' (g'.root t) t)
    (hbase : ∀ w base, g'.elected t = some (w, base) →
      BaseOk termOf g' t base ∧ ElectedOk members g' t w base)
    (hunelected : g'.elected t = none → g'.root t = [])
    (hcast : ∀ c log, g'.cast i t = some (c, log) → CastOk termOf members g' i t c log)
    (hcampaign : ∀ log, g'.campaign i t = some log →
      LogOk termOf g' log t ∧ (∀ e ∈ log, termOf e < t) ∧ g'.cast i t = some (i, log))
    (hacked : g'.acked i t ≤ (g'.root t).length) : RecordOk termOf members g' := by
  refine ⟨fun u => ?_, fun u hu => ?_, fun u w base hu => ?_, fun v u c log hv => ?_,
    fun c u log hc => ?_, fun u w base hu => ?_, fun v u => ?_⟩
  · by_cases h : u = t
    · exact h ▸ hroot
    · rw [hx.root_of_ne h]
      exact hx.logOk (hrecord.root u)
  · by_cases h : u = t
    · subst h
      exact hunelected hu
    · rw [hx.root_of_ne h]
      refine hrecord.unelected u ?_
      cases hold : g.elected u with
      | none => rfl
      | some x => rw [hx.elected u x hold] at hu; cases hu
  · by_cases h : u = t
    · subst h
      exact (hbase w base hu).1
    · exact (hrecord.base u w base (hx.elected_of_ne h hu)).congr (hx.root_of_ne h)
  · by_cases h : v = i ∧ u = t
    · obtain ⟨rfl, rfl⟩ := h
      exact hcast c log hv
    · have hold : g.cast v u = some (c, log) := by
        by_cases hvi : v = i
        · subst hvi
          rw [← (hx.past u fun hu => h ⟨rfl, hu⟩).1]
          exact hv
        · rw [← (hx.others v hvi).1]
          exact hv
      exact hx.castOk hrecord (fun hvi => hpast u _ (hvi ▸ hold)) (hrecord.cast v u c log hold)
  · by_cases h : c = i ∧ u = t
    · obtain ⟨rfl, rfl⟩ := h
      exact hcampaign log hc
    · have hold : g.campaign c u = some log := by
        by_cases hci : c = i
        · subst hci
          rw [← (hx.past u fun hu => h ⟨rfl, hu⟩).2.1]
          exact hc
        · rw [← (hx.others c hci).2.1]
          exact hc
      obtain ⟨hlog, hterms, hself⟩ := hrecord.campaign c u log hold
      exact ⟨hx.logOk hlog, hterms, hx.cast_mono hself⟩
  · by_cases h : u = t
    · subst h
      exact (hbase w base hu).2
    · exact hx.electedOk hrecord (hpast u) (hrecord.elected u w base (hx.elected_of_ne h hu))
  · by_cases h : v = i ∧ u = t
    · obtain ⟨rfl, rfl⟩ := h
      exact hacked
    · rw [hx.acked_other (not_and_or.mp h)]
      exact (hrecord.acked v u).trans (hx.root u).length_le

theorem castsOk (hrecord : RecordOk termOf members g) (hcast : g'.cast = g.cast) {c : ι}
    (h : g'.cast i t = some (c, log)) : CastOk termOf members g' i t c log := by
  rw [hcast] at h
  exact hx.castOk hrecord (fun _ => le_rfl) (hrecord.cast _ _ _ _ h)

theorem campaignsOk (hrecord : RecordOk termOf members g) (hcampaign : g'.campaign = g.campaign)
    (h : g'.campaign i t = some log) :
    LogOk termOf g' log t ∧ (∀ e ∈ log, termOf e < t) ∧ g'.cast i t = some (i, log) := by
  rw [hcampaign] at h
  obtain ⟨hlog, hbelow, hself⟩ := hrecord.campaign _ _ _ h
  exact ⟨hx.logOk hlog, hbelow, hx.cast_mono hself⟩

/-- Without a new leader, and without entries of one. -/
theorem recordOk_of_roots (hrecord : RecordOk termOf members g)
    (hpast : ∀ u x, g.cast i u = some x → u ≤ t) (hroot : g'.root = g.root)
    (helected : g'.elected = g.elected)
    (hcast : ∀ c log, g'.cast i t = some (c, log) → CastOk termOf members g' i t c log)
    (hcampaign : ∀ log, g'.campaign i t = some log →
      LogOk termOf g' log t ∧ (∀ e ∈ log, termOf e < t) ∧ g'.cast i t = some (i, log))
    (hacked : g'.acked i t ≤ (g.root t).length) : RecordOk termOf members g' := by
  refine hx.recordOk hrecord hpast ?_ (fun w base hw => ?_) (fun hnone => ?_) hcast hcampaign
    (hroot ▸ hacked)
  · rw [hroot]
    exact hx.logOk (hrecord.root _)
  · rw [helected] at hw
    exact ⟨(hrecord.base _ _ _ hw).congr (congrFun hroot _),
      hx.electedOk hrecord (hpast _) (hrecord.elected _ _ _ hw)⟩
  · rw [helected] at hnone
    rw [hroot]
    exact hrecord.unelected _ hnone

theorem future (hnode : NodeOk termOf members g i n) (hterm : n.term ≤ t) (hu : t < u) :
    g'.cast i u = none ∧ g'.campaign i u = none ∧ g'.acked i u = 0 := by
  obtain ⟨hcast, hcampaign, hacked⟩ := hx.past u hu.ne'
  rw [hcast, hcampaign, hacked]
  exact hnode.future u (hterm.trans_lt hu)

end Extends

/-! ## Moves that leave the record as it is -/

theorem Extends.refl (g : Record ι α) (i : ι) (t : ℕ) : Extends g g i t :=
  ⟨fun _ => prefix_rfl, fun _ h => absurd rfl h, fun _ _ h => h, fun _ _ h => .inl h,
    fun _ _ => ⟨rfl, rfl, rfl⟩, fun _ _ h => h, fun _ _ h => h, fun _ _ => ⟨rfl, rfl, rfl⟩, le_rfl⟩

theorem LogOk.mono (h : LogOk termOf g log t) (hle : t ≤ u) : LogOk termOf g log u :=
  ⟨h.rooted, h.ascending, fun e he => (h.bound e he).trans hle⟩

theorem LogOk.of_below (h : LogOk termOf g log t) (hpre : log' <+: log) : LogOk termOf g log' t :=
  ⟨h.rooted.of_below hpre, h.ascending.of_below hpre, fun e he => h.bound e (hpre.subset he)⟩

theorem Kept.mono (h : Kept g t k log u) (hle : u ≤ m) : Kept g t k log m := by
  rcases h with h | ⟨t', w, base, h1, h2, h3, h4⟩
  · exact .inl h
  · exact .inr ⟨t', w, base, h1, h2.trans hle, h3, h4⟩

theorem Kept.of_below (h : Kept g t k log u) (hpre : log <+: log') : Kept g t k log' u := by
  rcases h with h | h
  · exact .inl (h.trans hpre)
  · exact .inr h

theorem Kept.now (h : Kept g t k log t) : (g.root t).take k <+: log := by
  rcases h with h | ⟨t', -, -, h1, h2, -⟩
  · exact h
  · omega

theorem termAt_of_common {p : List α} (h : p <+: log) (h' : p <+: log') (hk : k < p.length) :
    termAt termOf log k = termAt termOf log' k := by
  obtain ⟨rest, rfl⟩ := h
  obtain ⟨rest', rfl⟩ := h'
  rw [termAt, termAt, getElem?_append_left hk, getElem?_append_left hk]

theorem Committed.take_eq (h : Committed termOf members g k log t) :
    k = 0 ∨ ∃ u m, u ≤ t ∧ Chosen termOf members g u m ∧ k ≤ m ∧ log.take k = (g.root u).take k := by
  rcases h with hzero | ⟨u, m, hu, hchosen, hm, hpre⟩
  · exact .inl hzero
  · refine .inr ⟨u, m, hu, hchosen, hm, ?_⟩
    have hlen : ((g.root u).take k).length = k := by
      obtain ⟨-, -, -, hlt⟩ := take_succ_of_termAt hchosen.2.1
      rw [length_take]
      omega
    rw [prefix_iff_eq_take.mp hpre, hlen]

theorem RecordOk.committed_agree [DecidableEq ι] (hrecord : RecordOk termOf members g)
    (h : Committed termOf members g k log t) (h' : Committed termOf members g m log' u) :
    log.take k <+: log'.take m ∨ log'.take m <+: log.take k := by
  rcases h.take_eq with rfl | ⟨t1, m1, -, hchosen1, hm1, heq1⟩
  · exact .inl (take_zero ▸ nil_prefix)
  rcases h'.take_eq with rfl | ⟨t2, m2, -, hchosen2, hm2, heq2⟩
  · exact .inr (take_zero ▸ nil_prefix)
  rw [heq1, heq2]
  -- both are part of the log of the later leader
  rcases Nat.le_total t1 t2 with hle | hle
  · obtain ⟨w, base, helected⟩ := hrecord.elected_of_chosen hchosen2
    have hroot := hrecord.complete_root hchosen1 hle helected
    exact prefix_or_prefix_of_prefix ((take_prefix_take_left hm1).trans hroot)
      (List.take_prefix _ _)
  · obtain ⟨w, base, helected⟩ := hrecord.elected_of_chosen hchosen1
    have hroot := hrecord.complete_root hchosen2 hle helected
    exact prefix_or_prefix_of_prefix (List.take_prefix _ _)
      ((take_prefix_take_left hm2).trans hroot)

namespace NodeOk

variable (hrecord : RecordOk termOf members g) (hnode : NodeOk termOf members g i n)
include hnode

theorem advance (ht : n.term < t) : NodeOk termOf members g i (n.advance t) := by
  refine ⟨hnode.log.mono ht.le, nofun, fun c => ?_, fun u hu => ?_, nofun, fun u k hk => ?_,
    hnode.commit.1, (Extends.refl g i t).committed ht.le prefix_rfl hnode.commit.2⟩
  · obtain ⟨hcast, -, -⟩ := hnode.future t ht
    refine ⟨nofun, fun ⟨log, hlog⟩ => ?_⟩
    have hlog : g.cast i t = some (c, log) := hlog
    rw [hcast] at hlog
    cases hlog
  · exact hnode.future u (ht.trans hu)
  · exact (hnode.kept u k hk).mono ht.le

theorem retire : NodeOk termOf members g i { n with role := .follower } :=
  { hnode with leader := nofun, candidate := nofun }

theorem count [DecidableEq ι] (hrole : n.role = .candidate) (hcast : g.cast v n.term = some (i, log)) :
    NodeOk termOf members g i { n with votes := insert v n.votes } := by
  refine ⟨hnode.log, fun h => ?_, hnode.vote, hnode.future, fun _ => ?_, hnode.kept, hnode.commit⟩
  · exact hnode.leader h
  · obtain ⟨hcampaign, hvotes, hnot⟩ := hnode.candidate hrole
    refine ⟨hcampaign, fun v' hv' => ?_, hnot⟩
    rcases Finset.mem_insert.mp hv' with rfl | hv'
    · exact ⟨log, hcast⟩
    · exact hvotes v' hv'

theorem setCommit (ht : t ≤ n.term) (hchosen : Chosen termOf members g t m) (hk : k ≤ m)
    (hlen : k ≤ n.log.length) (hpre : (g.root t).take k <+: n.log) :
    NodeOk termOf members g i { n with commit := k } :=
  ⟨hnode.log, hnode.leader, hnode.vote, hnode.future, hnode.candidate, hnode.kept, hlen,
    .inr ⟨t, m, ht, hchosen, hk, hpre⟩⟩

theorem cast_le (h : g.cast i u = some x) : u ≤ n.term := by
  by_contra hlt
  rw [(hnode.future u (by omega)).1] at h
  cases h

theorem acked_pos (h : 0 < g.acked i t) : t ≤ n.term := by
  by_contra hlt
  have := (hnode.future t (by omega)).2.2
  omega

theorem commitOwn (hrole : n.role = .leader) (hchosen : Chosen termOf members g n.term k) :
    NodeOk termOf members g i { n with commit := k } := by
  obtain ⟨-, hlog, -⟩ := hnode.leader hrole
  obtain ⟨-, -, -, hlt⟩ := take_succ_of_termAt hchosen.2.1
  refine hnode.setCommit le_rfl hchosen le_rfl ?_ ?_
  · rw [hlog]
    omega
  · rw [hlog]
    exact take_prefix _ _

include hrecord

theorem commit_prefix [DecidableEq ι]
    (helected : g.elected n.term = some (w, base)) : n.log.take n.commit <+: g.root n.term := by
  rcases hnode.commit.2.take_eq with hzero | ⟨u, m, hu, hchosen, hm, heq⟩
  · rw [hzero]
    exact nil_prefix
  · rw [heq]
    exact (take_prefix_take_left hm).trans (hrecord.complete_root hchosen hu helected)

theorem commitFrom [DecidableEq ι] (helected : g.elected n.term = some (w, base))
    (hlog : n.log <+: g.root n.term) (ht : t ≤ n.term) (hchosen : Chosen termOf members g t m)
    (hkm : k ≤ m) (hk : k ≤ n.log.length) : NodeOk termOf members g i { n with commit := k } := by
  refine hnode.setCommit ht hchosen hkm hk ?_
  have hroot := hrecord.complete_root hchosen ht helected
  refine prefix_of_prefix_length_le ((take_prefix_take_left hkm).trans hroot) hlog ?_
  rw [length_take]
  omega

theorem prefix_root (helected : g.elected n.term = some (w, base))
    (hbase : base.length < k) (hk : k ≤ (g.root n.term).length)
    (hold : (g.root n.term).take k <+: n.log) : n.log <+: g.root n.term := by
  have hterm := (hrecord.base _ _ _ helected).own base.length le_rfl (by omega)
  obtain ⟨e, htake, he, hlt⟩ := take_succ_of_termAt hterm
  refine hnode.log.rooted.prefix_of_term hnode.log.ascending hnode.log.bound ?_ he
  have hmem : e ∈ (g.root n.term).take (base.length + 1) := by
    rw [htake]
    exact mem_append_right _ (mem_singleton_self _)
  exact hold.subset ((take_prefix_take_left hbase).subset hmem)

theorem truncate [DecidableEq ι] (hrole : n.role = .follower)
    (helected : g.elected n.term = some (w, base))
    (hdiffer : termAt termOf n.log k ≠ termAt termOf (g.root n.term) k) :
    NodeOk termOf members g i { n with log := n.log.take k } := by
  -- what the two have in common ends before the cut
  have hcommon : ∀ p : List α, p <+: n.log → p <+: g.root n.term → p <+: n.log.take k := by
    intro p hlog hroot
    rcases Nat.lt_or_ge k p.length with hlt | hge
    · exact absurd (termAt_of_common hlog hroot hlt) hdiffer
    · refine prefix_of_prefix_length_le hlog (List.take_prefix _ _) ?_
      have := hlog.length_le
      rw [length_take]
      omega
  refine ⟨hnode.log.of_below (List.take_prefix _ _), ?_, hnode.vote, hnode.future, ?_,
    fun u m hm => ?_, ?_⟩
  · intro h
    exact absurd (hrole.symm.trans h) nofun
  · intro h
    exact absurd (hrole.symm.trans h) nofun
  · rcases hnode.kept u m hm with hpre | hlost
    · rcases Nat.eq_zero_or_pos m with rfl | hpos
      · exact .inl (take_zero ▸ nil_prefix)
      · have hu : u ≤ n.term := hnode.acked_pos (hpos.trans_le hm)
        rcases hu.eq_or_lt with rfl | hlt
        · exact .inl (hcommon _ hpre (List.take_prefix _ _))
        · by_cases hbase : (g.root u).take m <+: base
          · exact .inl (hcommon _ hpre (hbase.trans (hrecord.base _ _ _ helected).below))
          · exact .inr ⟨n.term, w, base, hlt, le_rfl, helected, hbase⟩
    · exact .inr hlost
  · have hcut := hcommon _ (List.take_prefix _ _) (hnode.commit_prefix hrecord helected)
    have hlen := hcut.length_le
    rw [length_take, Nat.min_eq_left hnode.commit.1] at hlen
    refine ⟨hlen, ?_⟩
    rcases hnode.commit.2 with hzero | ⟨u, m, hu, hchosen, hm, hpre⟩
    · exact .inl hzero
    · refine .inr ⟨u, m, hu, hchosen, hm, ?_⟩
      refine prefix_of_prefix_length_le hpre (List.take_prefix _ _) ?_
      exact ((length_take_le _ _).trans hlen)

end NodeOk

end Raft
