import Mathlib

/-!
# Programs of calls that may fail or be cut off

A program is a value, an error, or a call on a state with a program that goes on with the result. The
environment lets a call work or fail, or ends the program right before it.
-/

namespace Resumption

inductive Prog (σ ε α : Type) where
  | ret (a : α)
  | fail (e : ε)
  | call (update : Bool → σ → σ) (next : Bool → σ → Prog σ ε α)

namespace Prog

variable {σ ε α β η : Type}

def bind : Prog σ ε α → (α → Prog σ ε β) → Prog σ ε β
  | .ret a, k => k a
  | .fail e, _ => .fail e
  | .call update next, k => .call update fun works s => (next works s).bind k

instance : Monad (Prog σ ε) where
  pure := .ret
  bind := bind

def attempt (down : η) (op : σ → Except η (β × σ)) : Prog σ ε (Except η β) :=
  .call
    (fun works s =>
      if works then
        match op s with
        | .ok (_, s') => s'
        | .error _ => s
      else s)
    fun works s => .ret (if works then (op s).map Prod.fst else .error down)

def orFail (wrap : η → ε) (p : Prog σ ε (Except η α)) : Prog σ ε α :=
  p.bind fun
    | .ok a => .ret a
    | .error e => .fail (wrap e)

/-! ## Runs -/

def works : Prog σ ε α → σ → σ × Except ε α
  | .ret a, s => (s, .ok a)
  | .fail e, s => (s, .error e)
  | .call update next, s => (next true s).works (update true s)

inductive Cut : Prog σ ε α → σ → σ → Prop
  | now {update : Bool → σ → σ} {next : Bool → σ → Prog σ ε α} {s : σ} : Cut (.call update next) s s
  | later {update : Bool → σ → σ} {next : Bool → σ → Prog σ ε α} {s s' : σ}
      (h : Cut (next true s) (update true s) s') : Cut (.call update next) s s'

def Leaves (p : Prog σ ε α) (s s' : σ) : Prop := p.Cut s s' ∨ s' = (p.works s).1

variable {p : Prog σ ε α} {k : α → Prog σ ε β} {s s' : σ}

theorem works_bind : (p.bind k).works s =
    match p.works s with
    | (s', .ok a) => (k a).works s'
    | (s', .error e) => (s', .error e) := by
  induction p generalizing s with
  | ret a => rfl
  | fail e => rfl
  | call update next ih => exact ih true s

theorem works_bind_ok {a : α} (h : p.works s = (s', .ok a)) :
    (p.bind k).works s = (k a).works s' := by
  rw [works_bind, h]

theorem works_eq_ok {a : α} (h : (p.works s).2 = .ok a) : p.works s = ((p.works s).1, .ok a) :=
  Prod.ext rfl h

theorem works_bind_eq_ok {b : β} : (p.bind k).works s = (s', .ok b) ↔
    ∃ s1 a, p.works s = (s1, .ok a) ∧ (k a).works s1 = (s', .ok b) := by
  rw [works_bind]
  rcases p.works s with ⟨s1, r⟩
  cases r with
  | error e =>
    constructor
    · intro h
      cases h
    · rintro ⟨s1, a, h, -⟩
      cases h
  | ok a =>
    constructor
    · exact fun h => ⟨s1, a, rfl, h⟩
    · rintro ⟨s1, a, heq, h⟩
      cases heq
      exact h

theorem works_bind_error {e : ε} (h : p.works s = (s', .error e)) :
    (p.bind k).works s = (s', .error e) := by
  rw [works_bind, h]

/-- A run of two programs is cut off in the first one, or in the second one where the first has
ended. -/
theorem cut_bind {s'' : σ} : (p.bind k).Cut s s'' ↔
    p.Cut s s'' ∨ ∃ s' a, p.works s = (s', .ok a) ∧ (k a).Cut s' s'' := by
  induction p generalizing s with
  | ret a =>
    constructor
    · intro h
      exact .inr ⟨s, a, rfl, h⟩
    · rintro (h | ⟨s', a', heq, h⟩)
      · cases h
      · cases heq
        exact h
  | fail e =>
    constructor
    · intro h
      cases h
    · rintro (h | ⟨s', a', heq, -⟩)
      · cases h
      · cases heq
  | call update next ih =>
    constructor
    · intro h
      cases h with
      | now => exact .inl .now
      | later h =>
        rcases (ih true s).mp h with h | h
        · exact .inl (.later h)
        · exact .inr h
    · rintro (h | h)
      · cases h with
        | now => exact .now
        | later h => exact .later ((ih true s).mpr (.inl h))
      · exact .later ((ih true s).mpr (.inr h))

variable {op : σ → Except η (β × σ)}

theorem cut_attempt {down : η} : (attempt down op : Prog σ ε (Except η β)).Cut s s' ↔ s' = s := by
  constructor
  · intro h
    cases h with
    | now => rfl
    | later h => cases h
  · rintro rfl
    exact .now

theorem works_attempt {down : η} : (attempt down op : Prog σ ε (Except η β)).works s =
      match op s with
      | .ok (b, s') => (s', .ok (.ok b))
      | .error e => (s, .ok (.error e)) := by
  show (_, Except.ok ((op s).map Prod.fst)) = _
  cases h : op s <;> simp [h, Except.map]

theorem cut_bind_silent (hk : ∀ a s s', ¬ (k a).Cut s s') : (p.bind k).Cut s s' ↔ p.Cut s s' := by
  rw [cut_bind, or_iff_left]
  rintro ⟨s1, a, -, h⟩
  exact hk a s1 s' h

theorem cut_orFail {wrap : η → ε} {p : Prog σ ε (Except η α)} :
    (orFail wrap p).Cut s s' ↔ p.Cut s s' := by
  refine cut_bind_silent fun a s s' h => ?_
  cases a <;> cases h

theorem works_orFail {wrap : η → ε} {p : Prog σ ε (Except η α)} {r : Except η α}
    (h : p.works s = (s', .ok r)) : (orFail wrap p).works s = (s', r.mapError wrap) := by
  rw [orFail, works_bind_ok h]
  cases r <;> rfl

theorem leaves_bind : (p.bind k).Leaves s s' ↔
    p.Cut s s' ∨ (∃ e, p.works s = (s', .error e)) ∨
      ∃ s1 a, p.works s = (s1, .ok a) ∧ (k a).Leaves s1 s' := by
  rw [Leaves, cut_bind, works_bind]
  rcases hp : p.works s with ⟨s1, r⟩
  cases r with
  | error e =>
    constructor
    · rintro ((h | ⟨s2, a, h, -⟩) | h)
      · exact .inl h
      · cases h
      · exact .inr (.inl ⟨e, by rw [h]⟩)
    · rintro (h | ⟨e', h⟩ | ⟨s2, a, h, -⟩)
      · exact .inl (.inl h)
      · cases h
        exact .inr rfl
      · cases h
  | ok a =>
    constructor
    · rintro ((h | ⟨s2, a', heq, h⟩) | h)
      · exact .inl h
      · cases heq
        exact .inr (.inr ⟨s1, a, rfl, .inl h⟩)
      · exact .inr (.inr ⟨s1, a, rfl, .inr h⟩)
    · rintro (h | ⟨e', h⟩ | ⟨s2, a', heq, h⟩)
      · exact .inl (.inl h)
      · cases h
      · cases heq
        rcases h with h | h
        · exact .inl (.inr ⟨s1, a, rfl, h⟩)
        · exact .inr h

theorem leaves_bind_of_ok {a : α} {s1 : σ} (hp : p.works s = (s1, .ok a))
    (h : (p.bind k).Leaves s s') : p.Cut s s' ∨ (k a).Leaves s1 s' := by
  rcases leaves_bind.mp h with h | ⟨e, he⟩ | ⟨s2, a', ha, h⟩
  · exact .inl h
  · cases hp.symm.trans he
  · cases hp.symm.trans ha
    exact .inr h

theorem leaves_refl (p : Prog σ ε α) (s : σ) : p.Leaves s s := by
  cases p with
  | ret a => exact .inr rfl
  | fail e => exact .inr rfl
  | call update next => exact .inl .now

theorem leaves_bind_left (h : p.Leaves s s') : (p.bind k).Leaves s s' := by
  rcases h with hcut | hend
  · exact leaves_bind.mpr (.inl hcut)
  · rcases hp : p.works s with ⟨s1, r⟩
    rw [hp] at hend
    subst hend
    cases r with
    | error e => exact leaves_bind.mpr (.inr (.inl ⟨e, hp⟩))
    | ok a => exact leaves_bind.mpr (.inr (.inr ⟨s', a, hp, leaves_refl ..⟩))

theorem leaves_bind_right {a : α} {s1 : σ} (hp : p.works s = (s1, .ok a))
    (h : (k a).Leaves s1 s') : (p.bind k).Leaves s s' :=
  leaves_bind.mpr (.inr (.inr ⟨s1, a, hp, h⟩))

/-- What each of two programs can leave behind is reached along a transitive relation: so is what both
can leave behind. -/
theorem leaves_bind_rel {R : σ → σ → Prop} (htrans : ∀ s1 s2 s3, R s1 s2 → R s2 s3 → R s1 s3)
    (hp : ∀ s1, p.Leaves s s1 → R s s1)
    (hk : ∀ s1 a, p.works s = (s1, .ok a) → ∀ s2, (k a).Leaves s1 s2 → R s1 s2)
    (h : (p.bind k).Leaves s s') : R s s' := by
  rcases leaves_bind.mp h with hcut | ⟨e, herr⟩ | ⟨s1, a, hok, hrest⟩
  · exact hp s' (.inl hcut)
  · exact hp s' (.inr (by rw [herr]))
  · exact htrans s s1 s' (hp s1 (.inr (by rw [hok]))) (hk s1 a hok s' hrest)

theorem leaves_ret {a : α} : (.ret a : Prog σ ε α).Leaves s s' ↔ s' = s := by
  constructor
  · rintro (h | h)
    · cases h
    · exact h
  · exact .inr

theorem leaves_bind_ret {f : α → β} : (p.bind fun a => .ret (f a)).Leaves s s' ↔ p.Leaves s s' := by
  refine ⟨fun h => ?_, leaves_bind_left⟩
  rcases leaves_bind.mp h with hcut | ⟨e, herr⟩ | ⟨s1, a, hok, hret⟩
  · exact .inl hcut
  · exact .inr (by rw [herr])
  · rw [leaves_ret] at hret
    exact .inr (by rw [hok, hret])

end Prog

end Resumption
