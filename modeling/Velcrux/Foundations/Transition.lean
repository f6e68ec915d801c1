import Mathlib

/-!
# Runs of a transition system

A system is given by a partial step function on states and events. A run keeps its history, so that
properties of what happened earlier can be stated; `ok` restricts the steps that are considered.
-/

namespace Transition

variable {σ ε : Type*}
variable {h : List (σ × ε)} {s : σ} {p : ε → Prop}

inductive Run (step : σ → ε → Option σ) (ok : σ → ε → Prop) (init : σ → Prop) :
    List (σ × ε) → σ → Prop
  | start {s : σ} (hinit : init s) : Run step ok init [] s
  | step {h : List (σ × ε)} {s s' : σ} {e : ε} (hrun : Run step ok init h s) (hok : ok s e)
      (hstep : step s e = some s') : Run step ok init ((s, e) :: h) s'

variable {step : σ → ε → Option σ} {ok : σ → ε → Prop} {init : σ → Prop}

/-- What holds at the start and is kept by every step holds in every state of every run. The property
may speak about the history. -/
theorem Run.invariant {I : List (σ × ε) → σ → Prop} (hinit : ∀ s, init s → I [] s)
    (hstep : ∀ h s e s', Run step ok init h s → I h s → ok s e → step s e = some s' →
      I ((s, e) :: h) s') (hrun : Run step ok init h s) : I h s := by
  induction hrun with
  | start hs => exact hinit _ hs
  | step hrun hok hs ih => exact hstep _ _ _ _ hrun ih hok hs

def Seen (p : ε → Prop) (h : List (σ × ε)) : Prop := ∃ x ∈ h, p x.2

def Moment (p : ε → Prop) : List (σ × ε) → σ → σ → Prop
  | [], _, _ => False
  | (s1, e) :: h, s, m => (m = s ∧ Seen p ((s1, e) :: h)) ∨ Moment p h s1 m

theorem Seen.cons (x : σ × ε) (hs : Seen p h) : Seen p (x :: h) := by
  obtain ⟨y, hy, hp⟩ := hs
  exact ⟨y, List.mem_cons_of_mem _ hy, hp⟩

theorem Seen.head {e : ε} (hp : p e) (s : σ) (h : List (σ × ε)) :
    Seen p ((s, e) :: h) := ⟨(s, e), List.mem_cons_self, hp⟩

theorem Moment.later {s1 m : σ} (hm : Moment p h s1 m) (e : ε)
    (s : σ) : Moment p ((s1, e) :: h) s m := .inr hm

theorem Moment.now (hs : Seen p h) (s : σ) : Moment p h s s := by
  cases h with
  | nil =>
    obtain ⟨x, hx, -⟩ := hs
    cases hx
  | cons x h => exact .inl ⟨rfl, hs⟩

theorem Moment.mem {m : σ} (hm : Moment p h s m) : m ∈ s :: h.map Prod.fst := by
  induction h generalizing s with
  | nil => exact absurd hm (by simp [Moment])
  | cons x h ih =>
    rcases hm with ⟨rfl, -⟩ | hm
    · simp
    · exact List.mem_cons_of_mem _ (ih hm)

theorem Run.imp {ok' : σ → ε → Prop} (himp : ∀ h s e, Run step ok init h s → ok s e → ok' s e)
    (hrun : Run step ok init h s) : Run step ok' init h s := by
  induction hrun with
  | start hs => exact .start hs
  | step hrun hok hs ih => exact .step ih (himp _ _ _ hrun hok) hs

def exec (step : σ → ε → Option σ) (check : σ → ε → Bool) :
    List (σ × ε) → σ → List ε → Option (List (σ × ε) × σ)
  | h, s, [] => some (h, s)
  | h, s, e :: es =>
    if check s e then
      match step s e with
      | none => none
      | some s' => exec step check ((s, e) :: h) s' es
    else none

theorem run_exec {check : σ → ε → Bool} {es : List ε} {h' : List (σ × ε)} {s' : σ}
    (hrun : Run step (fun s e => check s e = true) init h s)
    (hexec : exec step check h s es = some (h', s')) :
    Run step (fun s e => check s e = true) init h' s' := by
  induction es generalizing h s with
  | nil =>
    obtain ⟨rfl, rfl⟩ := hexec
    exact hrun
  | cons e es ih =>
    simp only [exec] at hexec
    split_ifs at hexec with hcheck
    split at hexec
    · cases hexec
    · rename_i s1 hs
      exact ih (.step hrun hcheck hs) hexec

end Transition
