import Velcrux.Transfer.Limiter

/-!
# Slots of the limiter

Every slot that is counted belongs to a permit, to a release that has not run, to a message that is
on its way, or was lost with a waiter that was cancelled after its message had come.
-/

namespace Velcrux.Transfer.TransferLimiter

open List

variable {n : ℕ} {h : List (TransferLimiter × LimiterEvent)} {s s' : TransferLimiter}

structure Balanced (n lost : ℕ) (s : TransferLimiter) : Prop where
  limit : s.maxConcurrency = max n 1
  active_le : s.activeCount ≤ s.maxConcurrency
  active : s.activeCount = s.permits + s.releases + s.notified.length + lost

theorem balanced_handOver {lost : ℕ} (hs : Balanced n lost s) (hpos : s.releases ≠ 0) :
    Balanced n lost (handOver { s with releases := s.releases - 1 }) := by
  obtain ⟨hlimit, hle, hactive⟩ := hs
  unfold handOver
  rcases notifyFirst s.awaiting s.waiters TransferPriority.all with ⟨_ | i, waiters⟩
  · exact ⟨hlimit, by dsimp only; omega, by dsimp only; omega⟩
  · exact ⟨hlimit, hle, by dsimp only; rw [length_cons]; omega⟩

theorem balanced_step {lost : ℕ} {e : LimiterEvent} (hs : Balanced n lost s)
    (hstep : s.step e = some s') : Balanced n (lost + if loses (s, e) then 1 else 0) s' := by
  obtain ⟨hlimit, hle, hactive⟩ := hs
  have herase : ∀ i ∈ s.notified, (s.notified.erase i).length + 1 = s.notified.length := by
    intro i hi
    have := length_pos_of_mem hi
    rw [length_erase_of_mem hi]
    omega
  cases e with
  | acquire priority =>
    rw [step] at hstep
    split_ifs at hstep with hroom
    · cases hstep
      exact ⟨hlimit, hroom, by simp [loses]; omega⟩
    · cases hstep
      exact ⟨hlimit, hle, by simpa [loses] using hactive⟩
  | resume i =>
    rw [step] at hstep
    split_ifs at hstep with hi
    cases hstep
    have := herase i hi
    exact ⟨hlimit, hle, by simp [loses]; omega⟩
  | cancel i =>
    rw [step] at hstep
    split_ifs at hstep with hi hwait
    · cases hstep
      have := herase i hi
      exact ⟨hlimit, hle, by simp [loses, hi]; omega⟩
    · cases hstep
      exact ⟨hlimit, hle, by simpa [loses, hi] using hactive⟩
  | dropPermit =>
    rw [step] at hstep
    split_ifs at hstep with hpos
    cases hstep
    exact ⟨hlimit, hle, by simp [loses]; omega⟩
  | release =>
    rw [step] at hstep
    split_ifs at hstep with hpos
    cases hstep
    simpa [loses] using balanced_handOver ⟨hlimit, hle, hactive⟩ hpos

theorem balanced_run (hrun : LimiterRun n h s) : Balanced n (h.countP loses) s := by
  refine hrun.invariant (I := fun h s => Balanced n (h.countP loses) s) ?_ ?_
  · rintro s rfl
    exact ⟨rfl, Nat.zero_le _, rfl⟩
  · intro h s e s' _ hs _ hstep
    rw [countP_cons]
    exact balanced_step hs hstep

/-- **Transfer slots** are neither exceeded nor lost, exactly if no waiter was cancelled after its
message had come. -/
theorem slotsKept_iff (hrun : LimiterRun n h s) :
    SlotsKept n s ↔ (s.releases = 0 → h.countP loses = 0) := by
  obtain ⟨hlimit, hle, hactive⟩ := balanced_run hrun
  constructor
  · intro hkept hnone
    have := (hkept.2 hnone).1
    omega
  · refine fun hlost => ⟨by omega, fun hnone => ?_⟩
    refine ⟨by omega, fun hpermits _ hnotified => ?_⟩
    rw [hnotified, length_nil] at hactive
    omega

/-- One waiter is cancelled in time, and the slot goes on to the other one, which runs. -/
theorem slotsKept_handedOver :
    ∃ h s, LimiterRun 1 h s ∧ s.permits = 1 ∧ s.next = 2 ∧ s.releases = 0 ∧ SlotsKept 1 s := by
  have h1 : LimiterRun 1 _ _ := .step (e := .acquire .normal) (.start rfl) trivial rfl
  have h2 : LimiterRun 1 _ _ := .step (e := .acquire .urgent) h1 trivial rfl
  have h3 : LimiterRun 1 _ _ := .step (e := .acquire .low) h2 trivial rfl
  have h4 : LimiterRun 1 _ _ := .step (e := .cancel 0) h3 trivial rfl
  have h5 : LimiterRun 1 _ _ := .step (e := .dropPermit) h4 trivial rfl
  have h6 : LimiterRun 1 _ _ := .step (e := .release) h5 trivial rfl
  have h7 : LimiterRun 1 _ _ := .step (e := .resume 1) h6 trivial rfl
  exact ⟨_, _, h7, rfl, rfl, rfl, (slotsKept_iff h7).mpr fun _ => by decide⟩

/-- The only slot goes to a waiter that is cancelled before it runs: nobody has it, and it stays
taken. -/
theorem slot_lost : ∃ h s, LimiterRun 1 h s ∧ s.permits = 0 ∧ s.releases = 0 ∧ s.awaiting = [] ∧
    s.notified = [] ∧ s.activeCount = 1 := by
  have h1 : LimiterRun 1 _ _ := .step (e := .acquire .normal) (.start rfl) trivial rfl
  have h2 : LimiterRun 1 _ _ := .step (e := .acquire .normal) h1 trivial rfl
  have h3 : LimiterRun 1 _ _ := .step (e := .dropPermit) h2 trivial rfl
  have h4 : LimiterRun 1 _ _ := .step (e := .release) h3 trivial rfl
  have h5 : LimiterRun 1 _ _ := .step (e := .cancel 0) h4 trivial rfl
  exact ⟨_, _, h5, rfl, rfl, rfl, rfl, rfl⟩

end Velcrux.Transfer.TransferLimiter
