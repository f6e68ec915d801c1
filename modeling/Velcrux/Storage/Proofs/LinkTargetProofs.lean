import Velcrux.Storage.LinkTarget

/-!
# Which targets stay inside the root

Both readings of a target are resolutions; `resolveTarget_eq_none_iff` says by counting when one
leaves the root.
-/

namespace Velcrux.Storage

open List VPath

variable {stack components : List (List Char)}

theorem climbsAbove_nil (depth : ℕ) : ¬ ClimbsAbove depth [] := by
  rintro ⟨first, hfirst, hlt⟩
  rw [prefix_nil.1 hfirst] at hlt
  simp at hlt

theorem climbsAbove_cons_iff (depth : ℕ) (c : List Char) (rest : List (List Char)) :
    ClimbsAbove depth (c :: rest) ↔
      if c = [] ∨ c = ['.'] then ClimbsAbove depth rest
      else if c = ['.', '.'] then depth = 0 ∨ ClimbsAbove (depth - 1) rest
      else ClimbsAbove (depth + 1) rest := by
  have hcons : ClimbsAbove depth (c :: rest) ↔ ∃ first, first <+: rest ∧
      depth + (first.countP (IsName ·) + if IsName c then 1 else 0) <
        first.countP (· = ['.', '.']) + if c = ['.', '.'] then 1 else 0 := by
    constructor
    · rintro ⟨first, hfirst, hlt⟩
      rcases prefix_cons_iff.1 hfirst with rfl | ⟨later, rfl, hlater⟩
      · simp at hlt
      · exact ⟨later, hlater, by simpa [countP_cons] using hlt⟩
    · rintro ⟨later, hlater, hlt⟩
      exact ⟨c :: later, cons_prefix_cons.2 ⟨rfl, hlater⟩,
        by simpa [countP_cons] using hlt⟩
  rw [hcons]
  by_cases hskip : c = [] ∨ c = ['.']
  · have hname : ¬ IsName c := fun h => hskip.elim h.1 h.2.1
    have hdots : c ≠ ['.', '.'] := by
      rintro rfl
      simp at hskip
    simp only [hskip, hname, hdots, if_true, if_false, Nat.add_zero]
    rfl
  · by_cases hdots : c = ['.', '.']
    · have hname : ¬ IsName c := fun h => h.2.2 hdots
      rw [if_neg hskip, if_pos hdots, if_neg hname, if_pos hdots]
      by_cases hdepth : depth = 0
      · exact iff_of_true ⟨[], List.nil_prefix, by simp [hdepth]⟩ (.inl hdepth)
      · rw [or_iff_right hdepth]
        exact exists_congr fun first => and_congr_right fun _ => by omega
    · have hname : IsName c := ⟨fun h => hskip (.inl h), fun h => hskip (.inr h), hdots⟩
      rw [if_neg hskip, if_neg hdots, if_pos hname, if_neg hdots]
      exact exists_congr fun first => and_congr_right fun _ => by omega

/-- **A resolution leaves the root if it climbs more often than it descends.** -/
theorem resolveTarget_eq_none_iff (stack components : List (List Char)) :
    resolveTarget stack components = none ↔ ClimbsAbove stack.length components := by
  induction components generalizing stack with
  | nil => simp [resolveTarget, climbsAbove_nil]
  | cons c rest ih =>
    rw [climbsAbove_cons_iff, resolveTarget]
    split_ifs with hskip hdots hstack
    · exact ih stack
    · simp [hstack]
    · rw [ih]
      simp [hstack]
    · rw [ih, length_append, length_singleton]

theorem pushTarget_eq_ok_iff (stack out components : List (List Char)) :
    pushTarget stack components = .ok out ↔ resolveTarget stack (components.map trim) = some out ∧
      ∀ c ∈ components.map trim, IsName c → byteLen c ≤ maxPathComponent := by
  induction components generalizing stack with
  | nil => simp [pushTarget, resolveTarget]
  | cons c rest ih =>
    rw [map_cons, pushTarget, resolveTarget]
    rw [forall_mem_cons]
    by_cases hskip : trim c = [] ∨ trim c = ['.']
    · have hname : ¬ IsName (trim c) := fun h => hskip.elim h.1 h.2.1
      simp only [hskip, if_true, ih, hname, false_imp_iff, true_and]
    · by_cases hdots : trim c = ['.', '.']
      · have hname : ¬ IsName (trim c) := fun h => h.2.2 hdots
        split_ifs <;> simp [ih, hname]
      · have hname : IsName (trim c) := ⟨fun h => hskip (.inl h), fun h => hskip (.inr h), hdots⟩
        split_ifs with hlong
        · refine iff_of_false (by simp) fun h => ?_
          have := h.2.1 hname
          omega
        · have hle : byteLen (trim c) ≤ maxPathComponent := by omega
          simp [ih, hle]

theorem validateSymlinkTarget_ok_iff (link : VPath) (t : String) :
    (∃ r, validateSymlinkTarget link t = .ok r) ↔
      RelativeTarget t ∧ ¬ ClimbsAbove link.shownParent.length (shownComponents t) ∧
        TargetFits link t := by
  have hpush (stack : List (List Char)) := pushTarget_eq_ok_iff link.shownParent stack
    (t.toList.splitOnP fun c => c = '/' || c = '\\')
  rw [← shownComponents] at hpush
  rw [← resolveTarget_eq_none_iff]
  constructor
  · rintro ⟨r, h⟩
    unfold validateSymlinkTarget at h
    dsimp only at h
    split_ifs at h with hempty hcontrol hsep hdrive
    split at h
    · cases h
    · next stack hstack =>
      split_ifs at h with hlong
      obtain ⟨hresolve, hlen⟩ := (hpush stack).1 hstack
      refine ⟨⟨hempty, hcontrol, hsep, hdrive⟩, by simp [hresolve], hlen, fun out hout => ?_⟩
      obtain rfl : stack = out := Option.some.inj (hresolve.symm.trans hout)
      omega
  · rintro ⟨⟨hempty, hcontrol, hsep, hdrive⟩, hresolve, hlen, htotal⟩
    obtain ⟨stack, hstack⟩ := Option.ne_none_iff_exists'.1 hresolve
    have hle := htotal stack hstack
    refine ⟨⟨String.ofList (['/'].intercalate stack)⟩, ?_⟩
    unfold validateSymlinkTarget
    dsimp only
    rw [if_neg hempty, if_neg hcontrol, if_neg hsep, if_neg hdrive, ← parentDir,
      ← shownParent, (hpush stack).2 ⟨hstack, hlen⟩]
    exact if_neg (by omega)

/-- **An accepted target stays inside the root** unless backslashes hide that it climbs. -/
theorem staysInside_iff_not_hiddenClimb (link : VPath) (t : String) :
    link.StaysInside t ↔ ¬ HiddenClimb link t := by
  have hok := validateSymlinkTarget_ok_iff link t
  constructor
  · rintro hstays ⟨hclimbs, hshown, hrel, hfits⟩
    obtain ⟨r, hr⟩ := hok.2 ⟨hrel, hshown, hfits⟩
    exact hstays r hr ((resolveTarget_eq_none_iff _ _).2 hclimbs)
  · intro hhidden r hr hnone
    obtain ⟨hrel, hshown, hfits⟩ := hok.1 ⟨r, hr⟩
    exact hhidden ⟨(resolveTarget_eq_none_iff _ _).1 hnone, hshown, hrel, hfits⟩

/-- A name with a backslash counts twice. -/
theorem not_staysInside_backslash :
    (∃ p, validate "l" = .ok p) ∧ ¬ VPath.StaysInside ⟨"l"⟩ "a\\b/../.." := by
  refine ⟨⟨⟨"l"⟩, by decide⟩, fun h => ?_⟩
  exact h ⟨""⟩ (by decide) (by decide)

end Velcrux.Storage
