import Velcrux.Sync.LockSaving
import Velcrux.Sync.Proofs.LockProofs

/-!
# Fencing tokens across a restart

A snapshot that a call holds has the counter of the manager, since nobody changes the table before
it is renamed; so the file has the counter of the manager unless an acquire call is still to save.
-/

namespace Velcrux.Sync

open List Option LockSystem DistributedLockManager

open Transition (Run exec run_exec)

theorem DistributedLockManager.saves_of_grantedToken {m : DistributedLockManager} {c : LockCall}
    {t : ℕ} (hgranted : c.grantedToken (m.call c).2.1 = some t) : (m.call c).2.2 = true := by
  cases c with
  | acquire resource holderId mode ttlSecs nowSecs rand =>
    simp only [call] at hgranted ⊢
    cases hanswer : (m.acquire resource holderId mode ttlSecs nowSecs rand).2 with
    | error e => simp [hanswer, Except.map, LockCall.grantedToken] at hgranted
    | ok lease => rfl
  | renew | release | purgeExpired =>
    simp only [LockCall.grantedToken, LockCall.isAcquire] at hgranted
    split at hgranted <;> simp at hgranted

namespace LockSystem

def acquires (h : List (LockSystem × LockEvent)) : ℕ := h.countP fun x => x.2.isAcquire

def AllSaved (h : List (LockSystem × LockEvent)) : Prop := ∀ x ∈ h, x.2.isFailure = false

/-- The counter that a manager started on the file has. -/
def savedCounter (s : LockSystem) : ℕ := (s.file.map LockReport.highestFencingToken).getD 100

def Pending (s : LockSystem) : Prop := ∃ p ∈ s.saving, p.acquires = true

/-- What holds after the history `h` from a manager that started with the counter `c0`. -/
structure Counts (c0 : ℕ) (h : List (LockSystem × LockEvent)) (s : LockSystem) : Prop where
  least : c0 ≤ s.manager.tokenCounter
  most : s.manager.tokenCounter ≤ c0 + acquires h
  tokens : ∀ t ∈ s.granted, c0 < t ∧ t ≤ s.manager.tokenCounter
  held : ∀ p ∈ s.saving, ∀ report ∈ p.snapshot,
    report.highestFencingToken = s.manager.tokenCounter
  saved : AllSaved h → s.savedCounter = s.manager.tokenCounter ∨ s.Pending

variable {c0 : ℕ} {s s' : LockSystem} {e : LockEvent} {h : List (LockSystem × LockEvent)}

theorem acquires_cons (x : LockSystem × LockEvent) :
    acquires (x :: h) = acquires h + if x.2.isAcquire then 1 else 0 := countP_cons ..

theorem start_tokenCounter (file : Option LockReport) (ttl maxTtl : ℕ) :
    (start file ttl maxTtl).manager.tokenCounter =
      (start file ttl maxTtl).savedCounter := by
  cases file <;> rfl

theorem Counts.start (file : Option LockReport) (ttl maxTtl : ℕ) :
    Counts (start file ttl maxTtl).manager.tokenCounter []
      (start file ttl maxTtl) where
  least := le_rfl
  most := le_rfl
  tokens t ht := absurd ht (by simp [LockSystem.start])
  held p hp := absurd hp (by simp [LockSystem.start])
  saved _ := .inl (start_tokenCounter file ttl maxTtl).symm

theorem granted_update (s : LockSystem) (id : ℕ) (c : LockCall) (order : LockMap) :
    ((s.update id c order).granted = s.granted ∧
      (s.update id c order).manager.tokenCounter = s.manager.tokenCounter) ∨
    c.isAcquire = true ∧
      (s.update id c order).granted = nextToken s.manager.tokenCounter :: s.granted ∧
      (s.update id c order).manager.tokenCounter = nextToken s.manager.tokenCounter ∧
      (s.update id c order).Pending := by
  rcases grantedToken_call { s.manager with locks := order } c with
    ⟨hnone, hsame⟩ | ⟨hacquire, hsome, hnext⟩
  · exact .inl ⟨by simp [update, hnone], hsame⟩
  · have hpending : ⟨id, c.isAcquire, none⟩ ∈ (s.update id c order).saving := by
      simp [update, saves_of_grantedToken hsome]
    exact .inr ⟨hacquire, by simp [update, hsome], hnext, _, hpending, hacquire⟩

theorem mem_saving_update {id : ℕ} {c : LockCall} {order : LockMap} {p : SavingCall}
    (hp : p ∈ (s.update id c order).saving) : p.snapshot = none ∨ p ∈ s.saving := by
  simp only [update] at hp
  split at hp
  · exact (mem_cons.mp hp).imp_left fun he => by rw [he]
  · exact .inr hp

theorem Pending.update (hpending : s.Pending) (id : ℕ) (c : LockCall) (order : LockMap) :
    (s.update id c order).Pending := by
  obtain ⟨p, hp, hacquires⟩ := hpending
  refine ⟨p, ?_, hacquires⟩
  simp only [LockSystem.update]
  split
  · exact mem_cons_of_mem _ hp
  · exact hp

theorem Counts.update (hcounts : Counts c0 h s) (id : ℕ) (c : LockCall) (order : LockMap)
    (hfree : ∀ p ∈ s.saving, p.id ≠ id ∧ p.snapshot = none)
    (hroom : c0 + acquires ((s, .update id c order) :: h) < 2 ^ 64) :
    Counts c0 ((s, .update id c order) :: h) (s.update id c order) := by
  have hheld : ∀ p ∈ (s.update id c order).saving, ∀ report ∈ p.snapshot,
      report.highestFencingToken = (s.update id c order).manager.tokenCounter := by
    intro p hp report hreport
    have hnone : p.snapshot = none := by
      rcases mem_saving_update hp with hnone | hp
      · exact hnone
      · exact (hfree p hp).2
    simp [hnone] at hreport
  obtain ⟨hleast, hmost, htokens, -, hsaved⟩ := hcounts
  rw [acquires_cons] at hroom
  rcases granted_update s id c order with ⟨hgranted, hsame⟩ | ⟨hacquire, hgranted, hnext, hpending⟩
  · refine ⟨hsame ▸ hleast, ?_, by rw [hgranted, hsame]; exact htokens, hheld, fun hall => ?_⟩
    · rw [hsame, acquires_cons]
      omega
    · rw [hsame]
      exact (hsaved fun x hx => hall x (mem_cons_of_mem _ hx)).imp_right
        fun hpending => hpending.update id c order
  · have hone : (LockEvent.update id c order).isAcquire = true := hacquire
    rw [if_pos hone] at hroom
    rw [nextToken_of_lt (by omega)] at hgranted hnext
    refine ⟨by omega, by rw [acquires_cons, if_pos hone]; omega, fun t ht => ?_, hheld,
      fun _ => .inr hpending⟩
    rw [hgranted] at ht
    rcases mem_cons.mp ht with rfl | ht
    · omega
    · have := htokens t ht
      omega

theorem mem_finish {id : ℕ} {p : SavingCall} (hp : p ∈ s.finish id) : p ∈ s.saving :=
  (mem_filter.mp hp).1

theorem snapshot_hold {id : ℕ} {report report' : LockReport} {p : SavingCall}
    (hp : p ∈ s.hold id report) (hreport : report' ∈ p.snapshot) :
    report' = report ∨ ∃ q ∈ s.saving, report' ∈ q.snapshot := by
  obtain ⟨q, hq, rfl⟩ := mem_map.mp hp
  split at hreport
  · exact .inl (by simpa using hreport.symm)
  · exact .inr ⟨q, hq, hreport⟩

theorem Pending.hold (hpending : s.Pending) (id : ℕ) (report : LockReport) :
    ({ s with saving := s.hold id report } : LockSystem).Pending := by
  obtain ⟨p, hp, hacquires⟩ := hpending
  refine ⟨_, mem_map_of_mem hp, ?_⟩
  split <;> exact hacquires

theorem Counts.step (hcounts : Counts c0 h s) (hstep : s.step e = some s')
    (hroom : c0 + acquires ((s, e) :: h) < 2 ^ 64) : Counts c0 ((s, e) :: h) s' := by
  cases e with
  | update id c order =>
    simp only [step, ite_none_right_eq_some, Option.some.injEq] at hstep
    obtain ⟨⟨-, hfree⟩, rfl⟩ := hstep
    exact hcounts.update id c order hfree hroom
  | snapshot id order =>
    obtain ⟨hleast, hmost, htokens, hheld, hsaved⟩ := hcounts
    simp only [step] at hstep
    split at hstep
    next =>
      simp only [ite_none_right_eq_some, Option.some.injEq] at hstep
      obtain ⟨-, rfl⟩ := hstep
      refine ⟨hleast, hmost, htokens, fun p hp report hreport => ?_, fun hall => ?_⟩
      · rcases snapshot_hold hp hreport with rfl | ⟨q, hq, hreport⟩
        · rfl
        · exact hheld q hq report hreport
      · exact (hsaved fun x hx => hall x (mem_cons_of_mem _ hx)).imp_right
          fun hpending => hpending.hold id _
    next => simp at hstep
  | rename id =>
    obtain ⟨hleast, hmost, htokens, hheld, hsaved⟩ := hcounts
    simp only [step] at hstep
    split at hstep
    next acquires report hfind =>
      obtain rfl := some.inj hstep
      exact ⟨hleast, hmost, htokens, fun p hp => hheld p (mem_finish hp), fun _ =>
        .inl (hheld _ (mem_of_find?_eq_some hfind) report rfl)⟩
    next => simp at hstep
  | saveFails id =>
    obtain ⟨hleast, hmost, htokens, hheld, -⟩ := hcounts
    simp only [step] at hstep
    split at hstep
    next =>
      obtain rfl := some.inj hstep
      exact ⟨hleast, hmost, htokens, fun p hp => hheld p (mem_finish hp), fun hall =>
        absurd (hall _ mem_cons_self) (by simp [LockEvent.isFailure])⟩
    next => simp at hstep

theorem counts_of_interleaves {file : Option LockReport} {ttl maxTtl : ℕ}
    (hrun : (start file ttl maxTtl).Interleaves h s)
    (hroom : (start file ttl maxTtl).manager.tokenCounter + acquires h < 2 ^ 64) :
    Counts (start file ttl maxTtl).manager.tokenCounter h s := by
  induction hrun with
  | start hs =>
    subst hs
    exact Counts.start file ttl maxTtl
  | @step h s s' e _ _ hstep ih =>
    have hacquires := acquires_cons (h := h) (s, e)
    exact (ih (by omega)).step hstep hroom

theorem Counts.savedCounter_of_returned (hcounts : Counts c0 h s) (hsaved : AllSaved h)
    (hreturned : s.Returned) : s.savedCounter = s.manager.tokenCounter := by
  rcases hcounts.saved hsaved with hcounter | ⟨p, hp, hacquires⟩
  · exact hcounter
  · simp [hreturned p hp] at hacquires

/-- **Main theorem.** For every interleaving of calls in which all saves succeed, a crash after the
acquire calls have returned, and every interleaving after the restart, in which the counter does not
overflow: the tokens granted after the restart are above all tokens granted before it. -/
theorem fences_of_returned (file : Option LockReport) (ttl maxTtl : ℕ)
    (h h' : List (LockSystem × LockEvent)) (s s' : LockSystem)
    (hbefore : (start file ttl maxTtl).Interleaves h s)
    (hroom : (start file ttl maxTtl).manager.tokenCounter + acquires h < 2 ^ 64)
    (hsaved : AllSaved h) (hreturned : s.Returned)
    (hafter : (s.restart ttl maxTtl).Interleaves h' s')
    (hroom' : (s.restart ttl maxTtl).manager.tokenCounter + acquires h' < 2 ^ 64) :
    s.Fences s' := by
  have hcounts := counts_of_interleaves hbefore hroom
  have hcounts' := counts_of_interleaves hafter hroom'
  intro t ht t' ht'
  calc t ≤ s.manager.tokenCounter := (hcounts.tokens t ht).2
    _ = s.savedCounter := (hcounts.savedCounter_of_returned hsaved hreturned).symm
    _ = (s.restart ttl maxTtl).manager.tokenCounter :=
      (start_tokenCounter s.file ttl maxTtl).symm
    _ < t' := (hcounts'.tokens t' ht').1

/-! ## Two calls that overlap, and a counter that overflows -/

def minuteLease (lockId resource : String) (fencingToken : ℕ) : LeaseLock :=
  ⟨lockId, resource, "h", .exclusive, fencingToken, 0, 60, 60⟩

def oneLease : LockMap := ⟨[("/a", [minuteLease "lck-101-0" "/a" 101])], by decide⟩

def twoLeases : LockMap :=
  ⟨[("/a", [minuteLease "lck-101-0" "/a" 101]), ("/b", [minuteLease "lck-102-0" "/b" 102])],
    by decide⟩

/-- Both calls change the table before one of them saves; they rename in the other order. -/
def overlapping : List LockEvent :=
  [.update 1 (.acquire "a" "h" .exclusive none 0 0) .empty,
    .update 2 (.acquire "b" "h" .exclusive none 0 0) oneLease, .snapshot 1 twoLeases,
    .snapshot 2 twoLeases, .rename 2, .rename 1]

def acquireC : LockEvent := .update 3 (.acquire "c" "h" .exclusive none 0 0) twoLeases

theorem interleaves_of_exec {s0 : LockSystem} {events : List LockEvent}
    (hexec : exec step (fun _ _ => true) [] s0 events = some (h, s)) : s0.Interleaves h s := by
  have hstart : Run step (fun _ _ => true = true) (· = s0) [] s0 := .start rfl
  exact (run_exec hstart hexec).imp fun _ _ _ _ _ => trivial

instance (h : List (LockSystem × LockEvent)) : Decidable (AllSaved h) :=
  inferInstanceAs (Decidable (∀ x ∈ h, x.2.isFailure = false))

theorem fences_overlapping :
    ∃ h s h' s', (start none 60 3600).Interleaves h s ∧ s.granted = [102, 101] ∧
      (s.restart 60 3600).Interleaves h' s' ∧ s'.granted = [103] ∧ s.Fences s' := by
  have hex : ((exec step (fun _ _ => true) [] (start none 60 3600) overlapping).any fun r =>
      r.2.granted == [102, 101] && decide r.2.Returned && decide (AllSaved r.1) &&
        acquires r.1 == 2 &&
        (exec step (fun _ _ => true) [] (r.2.restart 60 3600) [acquireC]).any fun r' =>
          r'.2.granted == [103] &&
            decide ((r.2.restart 60 3600).manager.tokenCounter + acquires r'.1 < 2 ^ 64)) =
      true := by decide
  obtain ⟨⟨h, s⟩, hexec, hall⟩ := (any_eq_true _ _).mp hex
  simp only [Bool.and_eq_true, beq_iff_eq, decide_eq_true_eq] at hall
  obtain ⟨⟨⟨⟨hgranted, hreturned⟩, hsaved⟩, hacquires⟩, hex'⟩ := hall
  obtain ⟨⟨h', s'⟩, hexec', hall'⟩ := (any_eq_true _ _).mp hex'
  simp only [Bool.and_eq_true, beq_iff_eq, decide_eq_true_eq] at hall'
  have hbefore := interleaves_of_exec hexec
  have hafter := interleaves_of_exec hexec'
  exact ⟨h, s, h', s', hbefore, hgranted, hafter, hall'.1,
    fences_of_returned none 60 3600 h h' s s' hbefore (by rw [hacquires]; decide) hsaved hreturned
      hafter hall'.2⟩

def nearlyFull : LockReport := ⟨0, 0, 0, 2 ^ 64 - 2, []⟩

def lastLease : LockMap :=
  ⟨[("/a", [minuteLease "lck-18446744073709551615-0" "/a" 18446744073709551615])], by decide⟩

/-- The token after `u64::MAX` is zero. -/
theorem not_fences_nearlyFull :
    ∃ h s, (start (some nearlyFull) 60 3600).Interleaves h s ∧ AllSaved h ∧ s.Returned ∧
      ∃ h' s', (s.restart 60 3600).Interleaves h' s' ∧ ¬ s.Fences s' := by
  have hex : ((exec step (fun _ _ => true) [] (start (some nearlyFull) 60 3600)
      [.update 1 (.acquire "a" "h" .exclusive none 0 0) .empty, .snapshot 1 lastLease,
        .rename 1]).any fun r => decide (AllSaved r.1) && decide r.2.Returned &&
        (exec step (fun _ _ => true) [] (r.2.restart 60 3600)
          [.update 2 (.acquire "b" "h" .exclusive none 0 0) lastLease]).any fun r' =>
            decide (¬ r.2.Fences r'.2)) = true := by decide
  obtain ⟨⟨h, s⟩, hexec, hall⟩ := (any_eq_true _ _).mp hex
  simp only [Bool.and_eq_true, decide_eq_true_eq] at hall
  obtain ⟨⟨hsaved, hreturned⟩, hex'⟩ := hall
  obtain ⟨⟨h', s'⟩, hexec', hall'⟩ := (any_eq_true _ _).mp hex'
  exact ⟨h, s, interleaves_of_exec hexec, hsaved, hreturned, h', s', interleaves_of_exec hexec',
    of_decide_eq_true hall'⟩

end LockSystem

end Velcrux.Sync
