import Velcrux.Server.Limits

/-!
# Quotas hold while calls do not overlap
-/

namespace Velcrux.Server

open Option Function

variable {m m' : LimitsManager} {identity : String} {q : ℕ} {r : QuotaReservation}
  {rs : List QuotaReservation}

@[simp] theorem total_cons (r : QuotaReservation) (rs : List QuotaReservation) (i : String) :
    total (r :: rs) i = (if r.identity = i then r.bytes else 0) + total rs i := rfl

theorem total_erase (h : r ∈ rs) (i : String) :
    total rs i = (if r.identity = i then r.bytes else 0) + total (rs.erase r) i := by
  exact ((List.perm_cons_erase h).map _).sum_eq

theorem total_eq_zero (h : ∀ x ∈ rs, x.identity ≠ identity) : total rs identity = 0 := by
  refine List.sum_eq_zero fun n hn => ?_
  obtain ⟨x, hx, rfl⟩ := List.mem_map.mp hn
  exact if_neg (h x hx)

structure Kept (identity : String) (q : ℕ) (m : LimitsManager) : Prop where
  quota : m.quotas identity = some q
  balanced : ∀ i, m.reserved i = total m.held i
  within : m.usage identity + m.reserved identity + total m.committing identity ≤ q
  checks : ∀ c ∈ m.checking, c.quota < 2 ^ 64 - 1 ∧
    (c.identity = identity → c.quota = q ∧ c.usage = m.usage identity ∧ total m.committing identity = 0)

theorem Kept.takeOff (h : Kept identity q m) (hr : r ∈ m.held) :
    (∀ i, (m.takeOff r).reserved i = total (m.takeOff r).held i) ∧
      (m.takeOff r).reserved identity + (if r.identity = identity then r.bytes else 0) = m.reserved identity := by
  have hafter (i : String) : (m.takeOff r).reserved i = total (m.takeOff r).held i := by
    have hbefore := h.balanced i
    rw [total_erase hr] at hbefore
    by_cases hi : r.identity = i
    · subst hi
      simp only [LimitsManager.takeOff, update_self, hbefore, if_true]
      omega
    · simp only [LimitsManager.takeOff, update_of_ne (Ne.symm hi), hbefore, if_neg hi, zero_add]
  refine ⟨hafter, ?_⟩
  rw [hafter, h.balanced, total_erase hr, add_comm]
  rfl

theorem Kept.step {e : LimitsEvent} (h : Kept identity q m) (hok : OneAtATime m e)
    (hquota : ∀ quotas, e = .reload quotas → quotas identity = some q) (hstep : m.step e = some m') :
    Kept identity q m' := by
  cases e with
  | readUsage r =>
    obtain ⟨⟨q', hq', hlt⟩, hcommit⟩ := hok
    rw [LimitsManager.step, hq'] at hstep
    obtain rfl := some.inj hstep
    refine ⟨h.quota, h.balanced, h.within, fun c hc => ?_⟩
    rcases List.mem_cons.mp hc with rfl | hc
    · refine ⟨hlt, ?_⟩
      rintro rfl
      exact ⟨some.inj (hq'.symm.trans h.quota), rfl, total_eq_zero hcommit⟩
    · exact h.checks c hc
  | reserve c =>
    rw [LimitsManager.step] at hstep
    dsimp only at hstep
    split_ifs at hstep with hc hfull
    · obtain rfl := some.inj hstep
      exact ⟨h.quota, h.balanced, h.within, fun x hx => h.checks x (List.mem_of_mem_erase hx)⟩
    · obtain rfl := some.inj hstep
      obtain ⟨hlt, hsame⟩ := h.checks c hc
      simp only [satAdd] at hfull
      -- below the greatest u64 nothing saturates, so the check is exact
      have hfits : c.usage + m.reserved c.identity + c.bytes ≤ c.quota := by omega
      have hmod : (m.reserved c.identity + c.bytes) % 2 ^ 64 = m.reserved c.identity + c.bytes :=
        Nat.mod_eq_of_lt (by omega)
      refine ⟨h.quota, fun i => ?_, ?_, fun x hx => h.checks x (List.mem_of_mem_erase hx)⟩
      · by_cases hi : c.identity = i
        · subst hi
          simp only [update_self, hmod, total_cons, if_true]
          rw [h.balanced, add_comm]
        · simp only [update_of_ne (Ne.symm hi), total_cons, if_neg hi, zero_add, h.balanced]
      · by_cases hi : c.identity = identity
        · obtain ⟨hq, husage, hzero⟩ := hsame hi
          subst hi
          simp only [update_self, hmod, hzero]
          omega
        · simpa only [update_of_ne (Ne.symm hi)] using h.within
  | unreserve r =>
    rw [LimitsManager.step] at hstep
    split_ifs at hstep with hr
    obtain rfl := some.inj hstep
    obtain ⟨hafter, hsum⟩ := h.takeOff hr
    have hwithin := h.within
    refine ⟨h.quota, hafter, ?_, fun c hc => ⟨(h.checks c hc).1, fun hi => ?_⟩⟩
    · show m.usage identity + (m.takeOff r).reserved identity + total (r :: m.committing) identity ≤ q
      rw [total_cons]
      omega
    · obtain ⟨hq, husage, hzero⟩ := (h.checks c hc).2 hi
      refine ⟨hq, husage, ?_⟩
      rw [total_cons, hzero, if_neg fun hr' => hok c hc (hi.trans hr'.symm)]
  | addUsage r =>
    rw [LimitsManager.step] at hstep
    split_ifs at hstep with hr
    obtain rfl := some.inj hstep
    have hwithin := h.within
    rw [total_erase hr] at hwithin
    refine ⟨h.quota, h.balanced, ?_, fun c hc => ⟨(h.checks c hc).1, fun hi => ?_⟩⟩
    · by_cases hi : r.identity = identity
      · subst hi
        simp only [update_self, satAdd]
        rw [if_pos rfl] at hwithin
        omega
      · simp only [update_of_ne (Ne.symm hi)]
        rwa [if_neg hi, zero_add] at hwithin
    · obtain ⟨hq, husage, hzero⟩ := (h.checks c hc).2 hi
      have hne : identity ≠ r.identity := fun hr' => hok c hc (hi.trans hr')
      rw [total_erase hr] at hzero
      simp only [update_of_ne hne]
      exact ⟨hq, husage, by omega⟩
  | release r =>
    rw [LimitsManager.step] at hstep
    split_ifs at hstep with hr
    obtain rfl := some.inj hstep
    obtain ⟨hafter, hsum⟩ := h.takeOff hr
    have hwithin := h.within
    refine ⟨h.quota, hafter, ?_, h.checks⟩
    show m.usage identity + (m.takeOff r).reserved identity + total m.committing identity ≤ q
    omega
  | reload quotas =>
    rw [LimitsManager.step] at hstep
    split_ifs at hstep
    obtain rfl := some.inj hstep
    exact ⟨hquota quotas rfl, h.balanced, h.within, h.checks⟩

/-- Reservations balance and the quota holds in every run whose sections do not get between each other. -/
theorem withinQuota_of_oneAtATime {h : List (LimitsManager × LimitsEvent)}
    (hrun : QuotaRun identity q OneAtATime h m) : WithinQuota identity q m := by
  have hkept : Kept identity q m := by
    refine Transition.Run.invariant (I := fun _ m => Kept identity q m) ?_ ?_ hrun
    · rintro m ⟨hquota, husage, hreserved, hchecking, hheld, hcommitting⟩
      refine ⟨hquota, fun i => by rw [hreserved, hheld]; rfl, ?_, by simp [hchecking]⟩
      rw [hreserved, hcommitting]
      exact husage
    · rintro h m e m' - hkept ⟨hok, hquota⟩ hstep
      exact hkept.step hok hquota hstep
  exact ⟨hkept.balanced, by have := hkept.within; omega⟩

def tenBytes : LimitsManager := ⟨fun _ => some 10, fun _ => 0, fun _ => 0, [], [], []⟩

def oneAtATimeCheck (m : LimitsManager) : LimitsEvent → Bool
  | .readUsage r => (m.quotas r.identity).any (· < 2 ^ 64 - 1) &&
      m.committing.all fun x => x.identity ≠ r.identity
  | .unreserve r | .addUsage r => m.checking.all fun c => c.identity ≠ r.identity
  | .reload _ => false
  | _ => true

theorem oneAtATime_of_check {e : LimitsEvent} (h : oneAtATimeCheck m e = true) :
    OneAtATime m e ∧ ∀ quotas, e ≠ .reload quotas := by
  cases e with
  | readUsage r =>
    simp only [oneAtATimeCheck, Bool.and_eq_true, Option.any_eq_true, List.all_eq_true,
      decide_eq_true_eq] at h
    exact ⟨h, by simp⟩
  | unreserve r | addUsage r =>
    simp only [oneAtATimeCheck, List.all_eq_true, decide_eq_true_eq] at h
    exact ⟨h, by simp⟩
  | reload quotas => cases h
  | reserve | release => exact ⟨trivial, by simp⟩

/-- Two reservations overlap, the first is committed, and a third finds too little left. -/
theorem withinQuota_tenBytes :
    ∃ h m, QuotaRun "t" 10 OneAtATime h m ∧ m.usage "t" = 6 ∧ m.held = [⟨"t", 3⟩] ∧
      WithinQuota "t" 10 m := by
  have hex : ((Transition.exec LimitsManager.step oneAtATimeCheck [] tenBytes
      [.readUsage ⟨"t", 6⟩, .readUsage ⟨"t", 3⟩, .reserve ⟨⟨"t", 6⟩, 10, 0⟩,
        .reserve ⟨⟨"t", 3⟩, 10, 0⟩, .unreserve ⟨"t", 6⟩, .addUsage ⟨"t", 6⟩, .readUsage ⟨"t", 2⟩,
        .reserve ⟨⟨"t", 2⟩, 10, 6⟩]).any fun r =>
      r.2.usage "t" == 6 && r.2.held == [⟨"t", 3⟩]) = true := by decide
  obtain ⟨⟨h, m⟩, hexec, hall⟩ := (Option.any_eq_true _ _).mp hex
  simp only [Bool.and_eq_true, beq_iff_eq] at hall
  have hrun : QuotaRun "t" 10 OneAtATime h m :=
    (Transition.run_exec (.start ⟨rfl, by decide, fun _ => rfl, rfl, rfl, rfl⟩) hexec).imp
      fun _ _ _ _ hcheck => (oneAtATime_of_check hcheck).imp_right fun hno quotas he =>
        absurd he (hno quotas)
  exact ⟨h, m, hrun, hall.1, hall.2, withinQuota_of_oneAtATime hrun⟩

/-- A commit comes between the two sections of a reservation: sixteen bytes of ten. -/
theorem not_withinQuota_tenBytes :
    ∃ h m, QuotaRun "t" 10 (fun _ _ => True) h m ∧ ¬ WithinQuota "t" 10 m := by
  have h0 : QuotaRun "t" 10 (fun _ _ => True) _ tenBytes :=
    .start ⟨rfl, by decide, fun _ => rfl, rfl, rfl, rfl⟩
  have h1 := h0.step (e := .readUsage ⟨"t", 6⟩) ⟨trivial, by simp⟩ rfl
  have h2 := h1.step (e := .reserve ⟨⟨"t", 6⟩, 10, 0⟩) ⟨trivial, by simp⟩ rfl
  have h3 := h2.step (e := .readUsage ⟨"t", 10⟩) ⟨trivial, by simp⟩ rfl
  have h4 := h3.step (e := .unreserve ⟨"t", 6⟩) ⟨trivial, by simp⟩ rfl
  have h5 := h4.step (e := .addUsage ⟨"t", 6⟩) ⟨trivial, by simp⟩ rfl
  have h6 := h5.step (e := .reserve ⟨⟨"t", 10⟩, 10, 0⟩) ⟨trivial, by simp⟩ rfl
  exact ⟨_, _, h6, fun hwithin => absurd hwithin.2 (by decide)⟩

end Velcrux.Server
