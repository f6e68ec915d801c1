import Velcrux.Transfer.Scheduler

/-!
# The scheduler starves no tier

A turn of `pop_next` brings the round robin one tier nearer to a given one, and a turn at that tier
adds a quantum to its deficit or pops its first task. So the bound on the turns that a first task
waits for falls with every turn (`WaitsFor`).
-/

namespace Velcrux.Transfer

open List hiding all
open Function
open TransferPriority (all)

variable {α : Type} {s : PriorityScheduler α} {p : TransferPriority} {t : ScheduledTask α}
  {fs : List (PriorityScheduler α → Returned α)} {r : Returned α} {rest : List (ScheduledTask α)}

namespace PriorityScheduler

/-! ## What a call takes out of the queues -/

def Takes (s : PriorityScheduler α) (r : Returned α) : Prop :=
  (r.2 = none ∧ r.1.queues = s.queues) ∨
    ∃ p t rest, r.2 = some t ∧ s.queues p = t :: rest ∧ r.1.queues = update s.queues p rest

theorem takes_visit (s : PriorityScheduler α) : s.Takes s.visit := by
  unfold visit
  dsimp only
  split
  · exact .inl ⟨rfl, rfl⟩
  · rename_i task rest hq
    split
    · exact .inr ⟨_, task, rest, rfl, hq, rfl⟩
    · exact .inl ⟨rfl, rfl⟩

theorem takes_serve (p : TransferPriority) (s : PriorityScheduler α) : s.Takes (serve p s) := by
  unfold serve
  split
  · exact .inl ⟨rfl, rfl⟩
  · rename_i task rest hq
    exact .inr ⟨p, task, rest, rfl, hq, rfl⟩

theorem takes_firstOf (hfs : ∀ f ∈ fs, ∀ s, Takes s (f s)) (s : PriorityScheduler α) :
    s.Takes (firstOf fs s) ∧ ((firstOf fs s).2 = none → ∀ f ∈ fs, ∃ s' : PriorityScheduler α,
      s'.queues = s.queues ∧ (f s').2 = none) := by
  induction fs generalizing s with
  | nil => exact ⟨.inl ⟨rfl, rfl⟩, by simp⟩
  | cons f fs ih =>
    obtain ⟨hf, hfs⟩ := forall_mem_cons.mp hfs
    have htakes := hf s
    unfold firstOf
    rcases hr : f s with ⟨s', _ | t⟩ <;> rw [hr] at htakes
    · have hq : s'.queues = s.queues := by simpa [Takes] using htakes
      obtain ⟨hlater, hnone⟩ := ih hfs s'
      rw [Takes, hq] at hlater
      rw [hq] at hnone
      exact ⟨hlater, fun h => forall_mem_cons.mpr ⟨⟨s, rfl, by rw [hr]⟩, hnone h⟩⟩
    · exact ⟨htakes, nofun⟩

theorem mem_all (p : TransferPriority) : p ∈ all := by
  cases p <;> decide

theorem isEmpty_iff : s.isEmpty = true ↔ ∀ p, s.queues p = [] := by
  simp [isEmpty, mem_all]

theorem takes_popNext (s : PriorityScheduler α) :
    s.Takes s.popNext ∧ (s.popNext.2.isSome ↔ ∃ p, s.queues p ≠ []) := by
  unfold popNext
  split_ifs with hempty
  · exact ⟨.inl ⟨rfl, rfl⟩, by simpa using isEmpty_iff.mp hempty⟩
  · have hsome : ∃ p, s.queues p ≠ [] := by
      by_contra hnone
      exact hempty (isEmpty_iff.mpr (by simpa using hnone))
    have hfs : ∀ f ∈ replicate (all.length * 2) visit ++ all.map serve,
        ∀ s : PriorityScheduler α, s.Takes (f s) := by
      rw [forall_mem_append, forall_mem_map]
      exact ⟨fun f hf => eq_of_mem_replicate hf ▸ takes_visit, fun p _ => takes_serve p⟩
    obtain ⟨htakes, hnone⟩ := takes_firstOf hfs s
    refine ⟨htakes, iff_of_true (Option.isSome_iff_ne_none.mpr fun h => ?_) hsome⟩
    obtain ⟨p, hp⟩ := hsome
    obtain ⟨s', hq, hserve⟩ := hnone h (serve p) (mem_append_right _ (mem_map_of_mem (mem_all p)))
    rw [← hq] at hp
    unfold serve at hserve
    split at hserve
    · exact hp ‹_›
    · cases hserve

theorem Takes.first (h : s.Takes r) (hq : s.queues p = t :: rest) :
    r.2 = some t ∨ r.1.queues p = t :: rest := by
  rcases h with ⟨-, heq⟩ | ⟨p', u, later, hsome, hu, heq⟩
  · exact .inr (heq ▸ hq)
  · by_cases hp : p = p'
    · rw [← hp, hq] at hu
      cases hu
      exact .inl hsome
    · exact .inr (by rw [heq, update_of_ne hp, hq])

theorem cancel_cases (s : PriorityScheduler α) (taskId : UInt64) (ps : List TransferPriority) :
    s.cancel taskId ps = (s, none) ∨ ∃ p t a b, s.queues p = a ++ t :: b ∧
      s.cancel taskId ps = ({ s with queues := update s.queues p (a ++ b) }, some t) := by
  induction ps with
  | nil => exact .inl rfl
  | cons p ps ih =>
    unfold cancel
    split
    · rename_i t later hdrop
      exact .inr ⟨p, t, _, later, by rw [← hdrop, takeWhile_append_dropWhile], rfl⟩
    · exact ih

/-! ## The wait of a first task -/

def tier : TransferPriority → ℕ
  | .urgent => 0
  | .high => 1
  | .normal => 2
  | .low => 3

theorem turn_eq_iff : s.turn = p ↔ s.roundRobinIndex % 4 = tier p := by
  have hlt := Nat.mod_lt s.roundRobinIndex (show 4 > 0 by decide)
  rw [turn, show all.length = 4 from rfl]
  generalize s.roundRobinIndex % 4 = k at hlt
  interval_cases k <;> cases p <;> decide

theorem visit_frame (s : PriorityScheduler α) : s.visit.1.baseQuantum = s.baseQuantum ∧
    s.visit.1.roundRobinIndex = (s.roundRobinIndex + 1) % 4 ∧
    ∀ p, s.turn ≠ p → s.visit.1.deficits p = s.deficits p := by
  unfold visit
  dsimp only
  split
  · exact ⟨rfl, rfl, fun p hp => update_of_ne (Ne.symm hp) ..⟩
  · split <;> exact ⟨rfl, rfl, fun p hp => update_of_ne (Ne.symm hp) ..⟩

theorem visit_credit (hq : s.queues s.turn = t :: rest) :
    s.visit.2 = some t ∨
      s.visit.1.deficits s.turn = s.deficits s.turn + s.turn.quantumBytes s.baseQuantum ∧
        s.deficits s.turn + s.turn.quantumBytes s.baseQuantum < t.cost.toNat := by
  have hlt := t.cost.toNat_lt
  simp only [visit, hq]
  split
  · exact .inl rfl
  · rename_i hcost
    unfold u64Max at hcost ⊢
    refine .inr ⟨(update_self ..).trans ?_, by omega⟩
    omega

/-- The number of turns before the one that serves a first task of the given cost. -/
def wait (s : PriorityScheduler α) (p : TransferPriority) (cost : UInt64) : ℕ :=
  4 * ((cost.toNat - s.deficits p - 1) / p.quantumBytes s.baseQuantum) +
    (tier p + 4 - s.roundRobinIndex % 4) % 4

/-- The task is the first of its tier, and popped within `n` turns. -/
structure WaitsFor (p : TransferPriority) (t : ScheduledTask α) (n : ℕ) (s : PriorityScheduler α) :
    Prop where
  first : ∃ rest, s.queues p = t :: rest
  turns : s.wait p t.cost < n

variable {n : ℕ}

theorem quantumBytes_pos (s : PriorityScheduler α) (p : TransferPriority) :
    0 < p.quantumBytes s.baseQuantum := by
  have hw : 0 < p.weight := by cases p <;> decide
  exact lt_min (Nat.mul_pos s.base_pos hw) (by decide)

theorem WaitsFor.visit (h : WaitsFor p t (n + 1) s) :
    s.visit.2 = some t ∨ WaitsFor p t n s.visit.1 := by
  obtain ⟨⟨rest, hq⟩, hturns⟩ := h
  have hlt : tier p < 4 := by cases p <;> decide
  obtain ⟨hsame, hindex, hother⟩ := visit_frame s
  rcases (takes_visit s).first hq with hpop | hq'
  · exact .inl hpop
  have hnext : s.visit.1.wait p t.cost < n ∨ s.visit.2 = some t := by
    unfold wait at hturns ⊢
    rw [hsame]
    by_cases hp : s.turn = p
    · subst hp
      rcases visit_credit hq with hpop | ⟨hcredit, hcost⟩
      · exact .inr hpop
      · have hquantum := s.quantumBytes_pos s.turn
        have hdiv : (t.cost.toNat - s.deficits s.turn - 1) / s.turn.quantumBytes s.baseQuantum =
            (t.cost.toNat - s.visit.1.deficits s.turn - 1) / s.turn.quantumBytes s.baseQuantum + 1 := by
          rw [← Nat.add_div_right _ hquantum]
          congr 1
          omega
        exact .inl (by omega)
    · have hne := mt turn_eq_iff.mpr hp
      rw [hother p hp]
      exact .inl (by omega)
  exact hnext.symm.imp_right fun hlt' => ⟨⟨rest, hq'⟩, hlt'⟩

theorem WaitsFor.serve (h : WaitsFor p t n s) (p' : TransferPriority) :
    (serve p' s).2 = some t ∨ WaitsFor p t n (serve p' s).1 := by
  obtain ⟨rest, hrest⟩ := h.first
  unfold PriorityScheduler.serve
  split
  · exact .inr h
  · rename_i task later hq
    by_cases hp : p = p'
    · rw [← hp, hrest] at hq
      cases hq
      exact .inl rfl
    · refine .inr ⟨⟨rest, (update_of_ne hp ..).trans hrest⟩, ?_⟩
      simpa only [wait, update_of_ne hp] using h.turns

theorem WaitsFor.firstOf (h : WaitsFor p t n s)
    (hfs : ∀ f ∈ fs, ∀ s, WaitsFor p t n s → (f s).2 = some t ∨ WaitsFor p t n (f s).1) :
    (firstOf fs s).2 = some t ∨ WaitsFor p t n (firstOf fs s).1 := by
  induction fs generalizing s with
  | nil => exact .inr h
  | cons f fs ih =>
    obtain ⟨hf, hfs⟩ := forall_mem_cons.mp hfs
    have hfirst := hf s h
    unfold PriorityScheduler.firstOf
    generalize f s = r at hfirst
    rcases r with ⟨s', _ | u⟩
    · exact ih (hfirst.resolve_left nofun) hfs
    · exact hfirst

theorem WaitsFor.popNext (h : WaitsFor p t (n + 1) s) :
    s.popNext.2 = some t ∨ WaitsFor p t n s.popNext.1 := by
  obtain ⟨rest, hq⟩ := h.first
  have hempty : ¬ s.isEmpty = true := fun hempty => by simp [isEmpty_iff.mp hempty] at hq
  have hlater : ∀ f ∈ replicate 7 PriorityScheduler.visit ++ all.map PriorityScheduler.serve,
      ∀ s, WaitsFor p t n s → (f s).2 = some t ∨ WaitsFor p t n (f s).1 := by
    rw [forall_mem_append, forall_mem_map]
    refine ⟨fun f hf s h => ?_, fun p' _ s h => h.serve p'⟩
    rw [eq_of_mem_replicate hf]
    exact WaitsFor.visit ⟨h.first, h.turns.trans n.lt_succ_self⟩
  have hfirst := h.visit
  rw [PriorityScheduler.popNext, if_neg hempty, show all.length * 2 = 7 + 1 from rfl,
    replicate_succ, cons_append, PriorityScheduler.firstOf]
  generalize s.visit = r at hfirst
  rcases r with ⟨s', _ | u⟩
  · exact (hfirst.resolve_left nofun).firstOf hlater
  · exact hfirst

theorem WaitsFor.cancel (h : WaitsFor p t n s) (taskId : UInt64) (ps : List TransferPriority) :
    (s.cancel taskId ps).2 = some t ∨ WaitsFor p t n (s.cancel taskId ps).1 := by
  obtain ⟨rest, hrest⟩ := h.first
  rcases cancel_cases s taskId ps with heq | ⟨p', u, a, b, hq, heq⟩ <;> rw [heq]
  · exact .inr h
  · by_cases hp : p = p'
    · subst hp
      rw [hrest] at hq
      cases a with
      | nil =>
        cases hq
        exact .inl rfl
      | cons v a =>
        cases hq
        exact .inr ⟨⟨a ++ b, update_self ..⟩, h.turns⟩
    · exact .inr ⟨⟨rest, (update_of_ne hp ..).trans hrest⟩, h.turns⟩

theorem WaitsFor.push (h : WaitsFor p t n s) (task : ScheduledTask α) :
    WaitsFor p t n (s.push task) := by
  obtain ⟨rest, hrest⟩ := h.first
  refine ⟨?_, h.turns⟩
  by_cases hp : p = task.priority
  · subst hp
    exact ⟨rest ++ [task], by simp [PriorityScheduler.push, hrest]⟩
  · exact ⟨rest, (update_of_ne hp ..).trans hrest⟩

end PriorityScheduler

namespace SchedulerLog

open PriorityScheduler

variable {l : SchedulerLog α} {n : ℕ}

/-! ## Runs -/

theorem subset_run (l : SchedulerLog α) (calls : List (SchedulerCall α)) :
    l.popped ⊆ (l.run calls).popped ∧ l.cancelled ⊆ (l.run calls).cancelled := by
  induction calls generalizing l with
  | nil => exact ⟨Subset.refl _, Subset.refl _⟩
  | cons c calls ih =>
    have hcall : l.popped ⊆ (l.call c).popped ∧ l.cancelled ⊆ (l.call c).cancelled := by
      cases c <;> simp [call]
    exact ⟨fun _ h => (ih _).1 (hcall.1 h), fun _ h => (ih _).2 (hcall.2 h)⟩

theorem served_of_waitsFor (h : WaitsFor p t n l.scheduler) (calls : List (SchedulerCall α))
    (hn : n ≤ calls.countP SchedulerCall.isPop) :
    t ∈ (l.run calls).popped ∨ t ∈ (l.run calls).cancelled := by
  induction calls generalizing l n with
  | nil => exact absurd h.turns (by simp at hn; omega)
  | cons c calls ih =>
    obtain ⟨hpopped, hcancelled⟩ := subset_run (l.call c) calls
    cases c with
    | push payload priority cost => exact ih (h.push _) hn
    | popNext =>
      obtain ⟨m, rfl⟩ : ∃ m, n = m + 1 := ⟨n - 1, by have := h.turns; omega⟩
      rw [countP_cons_of_pos rfl] at hn
      rcases h.popNext with hpop | h
      · exact .inl (hpopped (by simp [call, hpop]))
      · exact ih h (by omega)
    | cancel taskId =>
      rcases h.cancel taskId all with hcancel | h
      · exact .inr (hcancelled (by simp [call, hcancel]))
      · exact ih h hn

theorem ofTier_append (ts us : List (ScheduledTask α)) :
    ofTier p (ts ++ us) = ofTier p ts ++ ofTier p us := filter_append ..

theorem ofTier_self (t : ScheduledTask α) : ofTier t.priority [t] = [t] := by simp [ofTier]

theorem ofTier_of_ne (h : p ≠ t.priority) : ofTier p [t] = [] := by simp [ofTier, Ne.symm h]

theorem queues_push (s : PriorityScheduler α) (task : ScheduledTask α) (p : TransferPriority) :
    (s.push task).queues p = s.queues p ++ ofTier p [task] := by
  by_cases hp : p = task.priority
  · rw [hp, ofTier_self]
    exact update_self ..
  · rw [ofTier_of_ne hp, append_nil]
    exact update_of_ne hp ..

theorem queues_popNext (htier : ∀ p, ∀ t ∈ s.queues p, t.priority = p) (p : TransferPriority) :
    s.queues p = ofTier p s.popNext.2.toList ++ s.popNext.1.queues p := by
  rcases (takes_popNext s).1 with ⟨hnone, heq⟩ | ⟨p', t, rest, hsome, hq, heq⟩
  · rw [hnone, heq]
    rfl
  · obtain rfl := htier p' t (hq ▸ mem_cons_self)
    rw [hsome, heq, Option.toList_some]
    by_cases hp : p = t.priority
    · rw [hp, ofTier_self, update_self, hq]
      rfl
    · rw [ofTier_of_ne hp, update_of_ne hp]
      rfl

theorem queues_cancel (htier : ∀ p, ∀ t ∈ s.queues p, t.priority = p) (taskId : UInt64)
    (p : TransferPriority) : let r := s.cancel taskId all
    ∃ a b, s.queues p = a ++ (ofTier p r.2.toList ++ b) ∧ r.1.queues p = a ++ b := by
  rcases cancel_cases s taskId all with heq | ⟨p', t, a, b, hq, heq⟩ <;> rw [heq]
  · exact ⟨[], s.queues p, rfl, rfl⟩
  · obtain rfl := htier p' t (by simp [hq])
    by_cases hp : p = t.priority
    · subst hp
      exact ⟨a, b, by simpa [ofTier_self] using hq, update_self ..⟩
    · exact ⟨[], s.queues p, by simp [ofTier_of_ne hp], update_of_ne hp ..⟩

theorem Orderly.call (h : ∀ p, l.Orderly p) (c : SchedulerCall α) (p : TransferPriority) :
    (l.call c).Orderly p := by
  have htier : ∀ p, ∀ t ∈ l.scheduler.queues p, t.priority = p := by
    intro p t ht
    have hmem := (h p).ordered.subset (mem_append_right _ ht)
    simpa [ofTier] using (mem_filter.mp hmem).2
  obtain ⟨honce, hordered⟩ := h p
  cases c with
  | push payload priority cost =>
    refine ⟨?_, ?_⟩ <;> simp only [SchedulerLog.call, ofTier_append, queues_push]
    · refine (honce.append_right _).trans ?_
      simp only [append_assoc]
      exact (perm_append_comm.append_left _).append_left _
    · rw [← append_assoc]
      exact hordered.append (Sublist.refl _)
  | popNext =>
    rw [queues_popNext htier p, ← append_assoc, ← ofTier_append] at honce hordered
    exact ⟨honce, hordered⟩
  | cancel taskId =>
    obtain ⟨a, b, hq, hq'⟩ := queues_cancel htier taskId p
    rw [hq] at honce hordered
    refine ⟨?_, ?_⟩ <;> simp only [SchedulerLog.call, ofTier_append, hq']
    · refine honce.trans ?_
      simp only [append_assoc]
      refine (Perm.append_left _ ?_).append_left _
      rw [← append_assoc b]
      exact perm_append_comm
    · refine Sublist.trans ?_ hordered
      exact ((sublist_append_right _ b).append_left a).append_left _

theorem orderly_run (h : ∀ p, l.Orderly p) (calls : List (SchedulerCall α)) (p : TransferPriority) :
    (l.run calls).Orderly p := by
  induction calls generalizing l with
  | nil => exact h p
  | cons c calls ih => exact ih (Orderly.call h c)

/-- **The scheduler starves no tier.** The tasks of every tier are orderly, `pop_next` returns one as
long as there is one, and a first task of cost `c` waits for at most `n * ceil (c / q)` calls of
`pop_next`, unless it is cancelled. -/
theorem no_tier_starves (baseQuantum : UInt64) (calls : List (SchedulerCall α)) :
    let l := run ⟨.new baseQuantum, [], [], []⟩ calls
    (∀ p, l.Orderly p) ∧ (l.scheduler.popNext.2.isSome ↔ ∃ p, l.scheduler.queues p ≠ []) ∧
      ∀ p t rest, l.scheduler.queues p = t :: rest → ∀ later : List (SchedulerCall α),
        let q := p.quantumBytes l.scheduler.baseQuantum
        all.length * ((t.cost.toNat + q - 1) / q) ≤ later.countP SchedulerCall.isPop →
          t ∈ (run ⟨l.scheduler, [], [], []⟩ later).popped ∨
            t ∈ (run ⟨l.scheduler, [], [], []⟩ later).cancelled := by
  intro l
  refine ⟨orderly_run (fun p => ⟨.rfl, .refl _⟩) calls, (takes_popNext _).2, ?_⟩
  intro p t rest hq later q hlater
  have hquantum : 0 < q := quantumBytes_pos _ p
  have hceil : (t.cost.toNat + q - 1) / q = (t.cost.toNat - 1) / q + 1 := by
    rw [← Nat.add_div_right _ hquantum]
    congr 1
    have := t.pos
    omega
  have hle : (t.cost.toNat - l.scheduler.deficits p - 1) / q ≤ (t.cost.toNat - 1) / q :=
    Nat.div_le_div_right (by omega)
  have hwait : l.scheduler.wait p t.cost < 4 * ((t.cost.toNat + q - 1) / q) := by
    show 4 * ((t.cost.toNat - l.scheduler.deficits p - 1) / q) + _ < _
    omega
  exact served_of_waitsFor (l := ⟨l.scheduler, [], [], []⟩) ⟨⟨rest, hq⟩, hwait⟩ later hlater

end SchedulerLog

end Velcrux.Transfer
