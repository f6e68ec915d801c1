import Mathlib

/-!
# Comparing two lists by merging them

Two lists are run through side by side, and the smaller head goes first. The lists are sorted by
another order `W`, and the merge is right exactly if every key that is not shared is smaller than
the next key that is.
-/

namespace MergeDiff

open List

variable {α κ : Type*} [LinearOrder κ]

inductive Paired (α : Type*) where
  | left (a : α)
  | right (b : α)
  | both (a b : α)

def mergeBy (key : α → κ) : List α → List α → List (Paired α)
  | [], ys => ys.map .right
  | x :: xs, [] => (x :: xs).map .left
  | x :: xs, y :: ys =>
    if key x = key y then .both x y :: mergeBy key xs ys
    else if key x < key y then .left x :: mergeBy key xs (y :: ys)
    else .right y :: mergeBy key (x :: xs) ys
termination_by xs ys => xs.length + ys.length

def FollowsShared (other : List κ) : List κ → Prop
  | [] => True
  | x :: xs => (x ∉ other → ∀ c ∈ xs.find? (· ∈ other), x < c) ∧ FollowsShared other xs

def Separates (key : α → κ) (xs ys : List α) : Prop :=
  ∀ o ∈ mergeBy key xs ys, match o with
    | .left a => key a ∉ ys.map key
    | .right b => key b ∉ xs.map key
    | .both _ _ => True

/-! ## The shared keys -/

section Shared

variable {W : κ → κ → Prop} {x y c : κ} {xs ys other other' : List κ}

theorem find?_mem_congr (h : ∀ z ∈ xs, z ∈ other ↔ z ∈ other') :
    xs.find? (· ∈ other) = xs.find? (· ∈ other') := by
  induction xs with
  | nil => rfl
  | cons x xs ih =>
    rw [find?_cons, find?_cons, ih fun z hz => h z (mem_cons_of_mem x hz),
      decide_eq_decide.mpr (h x mem_cons_self)]

theorem followsShared_congr (h : ∀ z ∈ xs, z ∈ other ↔ z ∈ other') :
    FollowsShared other xs ↔ FollowsShared other' xs := by
  induction xs with
  | nil => rfl
  | cons x xs ih =>
    have hlater : ∀ z ∈ xs, z ∈ other ↔ z ∈ other' := fun z hz => h z (mem_cons_of_mem x hz)
    rw [FollowsShared, FollowsShared, ih hlater, find?_mem_congr hlater, h x mem_cons_self]

theorem find?_shared (hasymm : ∀ a b, W a b → ¬ W b a) (hxs : xs.Pairwise W) (hys : ys.Pairwise W)
    (hc : xs.find? (· ∈ ys) = some c) : ys.find? (· ∈ xs) = some c := by
  obtain ⟨hcys, as, bs, rfl, has⟩ := find?_eq_some_iff_append.mp hc
  have hcys : c ∈ ys := by simpa using hcys
  cases hd : ys.find? (· ∈ as ++ c :: bs) with
  | none => exact absurd (find?_eq_none.mp hd c hcys) (by simp)
  | some d =>
    obtain ⟨hdxs, as', bs', rfl, has'⟩ := find?_eq_some_iff_append.mp hd
    by_contra hne
    have hne : c ≠ d := fun h => hne (h ▸ rfl)
    -- each of the two would come before the other
    have hdbs : d ∈ bs := by
      have hdxs : d ∈ as ++ c :: bs := by simpa using hdxs
      rcases mem_append.mp hdxs with hdas | hdbs
      · exact absurd (has d hdas) (by simp)
      · exact (mem_cons.mp hdbs).resolve_left hne.symm
    have hcbs' : c ∈ bs' := by
      rcases mem_append.mp hcys with hcas | hcbs
      · exact absurd (has' c hcas) (by simp)
      · exact (mem_cons.mp hcbs).resolve_left hne
    have hcd : W c d := (pairwise_cons.mp (pairwise_append.mp hxs).2.1).1 d hdbs
    have hdc : W d c := (pairwise_cons.mp (pairwise_append.mp hys).2.1).1 c hcbs'
    exact hasymm c d hcd hdc

/-- The smaller head goes first: it must not be in the other list, and the rest must be right. -/
theorem followsShared_step (hasymm : ∀ a b, W a b → ¬ W b a) (hxs : (x :: xs).Pairwise W)
    (hys : (y :: ys).Pairwise W) (hlt : x < y) :
    FollowsShared (y :: ys) (x :: xs) ∧ FollowsShared (x :: xs) (y :: ys) ↔
      x ∉ y :: ys ∧ FollowsShared (y :: ys) xs ∧ FollowsShared xs (y :: ys) := by
  have hcongr (hx : x ∉ y :: ys) :
      FollowsShared (x :: xs) (y :: ys) ↔ FollowsShared xs (y :: ys) :=
    followsShared_congr fun z hz => by
      have hne : z ≠ x := fun h => hx (h ▸ hz)
      simp [hne]
  constructor
  · rintro ⟨hfx, hfy⟩
    have hx : x ∉ y :: ys := by
      intro hmem
      have hfirst : (x :: xs).find? (· ∈ y :: ys) = some x :=
        find?_cons_of_pos (by simpa using hmem)
      have hshared := find?_shared hasymm hxs hys hfirst
      by_cases hy : y ∈ x :: xs
      · have hyx : y = x := by
          rw [find?_cons_of_pos (by simpa using hy)] at hshared
          exact Option.some.inj hshared
        exact hlt.ne' hyx
      · rw [find?_cons_of_neg (by simpa using hy)] at hshared
        exact lt_asymm hlt (hfy.1 hy x hshared)
    exact ⟨hx, hfx.2, (hcongr hx).mp hfy⟩
  · rintro ⟨hx, hfx, hfy⟩
    refine ⟨⟨fun _ c hc => ?_, hfx⟩, (hcongr hx).mpr hfy⟩
    have hshared := find?_shared hasymm (pairwise_cons.mp hxs).2 hys hc
    by_cases hy : y ∈ xs
    · rw [find?_cons_of_pos (by simpa using hy)] at hshared
      exact Option.some.inj hshared ▸ hlt
    · rw [find?_cons_of_neg (by simpa using hy)] at hshared
      exact hlt.trans (hfy.1 hy c hshared)

end Shared

/-! ## The merge -/

variable {key : α → κ} {x y a b : α} {xs ys : List α}

theorem mergeBy_both (h : key x = key y) :
    mergeBy key (x :: xs) (y :: ys) = .both x y :: mergeBy key xs ys := by
  rw [mergeBy, if_pos h]

theorem mergeBy_left (h : key x < key y) :
    mergeBy key (x :: xs) (y :: ys) = .left x :: mergeBy key xs (y :: ys) := by
  rw [mergeBy, if_neg h.ne, if_pos h]

theorem mergeBy_right (h : key y < key x) :
    mergeBy key (x :: xs) (y :: ys) = .right y :: mergeBy key (x :: xs) ys := by
  rw [mergeBy, if_neg h.ne', if_neg h.not_gt]

theorem of_mem_mergeBy {o : Paired α} (h : o ∈ mergeBy key xs ys) :
    match o with
    | .left a => a ∈ xs
    | .right b => b ∈ ys
    | .both a b => a ∈ xs ∧ b ∈ ys ∧ key a = key b := by
  induction xs, ys using mergeBy.induct key with
  | case1 ys =>
    rw [mergeBy] at h
    obtain ⟨b, hb, rfl⟩ := mem_map.mp h
    exact hb
  | case2 x xs =>
    rw [mergeBy] at h
    obtain ⟨a, ha, rfl⟩ := mem_map.mp h
    exact ha
  | case3 x xs y ys heq ih =>
    rw [mergeBy_both heq] at h
    rcases mem_cons.mp h with rfl | h
    · exact ⟨mem_cons_self, mem_cons_self, heq⟩
    · cases o <;> grind
  | case4 x xs y ys hne hlt ih =>
    rw [mergeBy_left hlt] at h
    rcases mem_cons.mp h with rfl | h
    · exact mem_cons_self
    · cases o <;> grind
  | case5 x xs y ys hne hnlt ih =>
    rw [mergeBy_right (lt_of_le_of_ne (not_lt.mp hnlt) (Ne.symm hne))] at h
    rcases mem_cons.mp h with rfl | h
    · exact mem_cons_self
    · cases o <;> grind

theorem followsShared_nil (xs : List κ) : FollowsShared [] xs := by
  induction xs with
  | nil => trivial
  | cons x xs ih =>
    refine ⟨fun _ c hc => ?_, ih⟩
    have := find?_some hc
    simp at this

theorem separates_left (hlt : key x < key y) :
    Separates key (x :: xs) (y :: ys) ↔
      key x ∉ (y :: ys).map key ∧ Separates key xs (y :: ys) := by
  rw [Separates, mergeBy_left hlt, forall_mem_cons]
  refine and_congr_right fun hx => forall₂_congr fun o ho => ?_
  cases o with
  | left a => rfl
  | both a b => rfl
  | right b =>
    have hb : key b ∈ (y :: ys).map key := mem_map_of_mem (of_mem_mergeBy ho)
    have hne : key b ≠ key x := fun h => hx (h ▸ hb)
    dsimp only
    rw [map_cons, mem_cons, or_iff_right hne]

theorem separates_right (hlt : key y < key x) :
    Separates key (x :: xs) (y :: ys) ↔
      key y ∉ (x :: xs).map key ∧ Separates key (x :: xs) ys := by
  rw [Separates, mergeBy_right hlt, forall_mem_cons]
  refine and_congr_right fun hy => forall₂_congr fun o ho => ?_
  cases o with
  | right b => rfl
  | both a b => rfl
  | left a =>
    have ha : key a ∈ (x :: xs).map key := mem_map_of_mem (of_mem_mergeBy ho)
    have hne : key a ≠ key y := fun h => hy (h ▸ ha)
    dsimp only
    rw [map_cons, mem_cons, or_iff_right hne]

theorem separates_both (heq : key x = key y) (hx : key x ∉ xs.map key) (hy : key y ∉ ys.map key) :
    Separates key (x :: xs) (y :: ys) ↔ Separates key xs ys := by
  rw [Separates, mergeBy_both heq, forall_mem_cons, and_iff_right trivial]
  refine forall₂_congr fun o ho => ?_
  cases o with
  | both a b => rfl
  | left a =>
    have hne : key a ≠ key y := fun h => hx (heq ▸ h ▸ mem_map_of_mem (of_mem_mergeBy ho))
    dsimp only
    rw [map_cons, mem_cons, or_iff_right hne]
  | right b =>
    have hne : key b ≠ key x :=
      fun h => hy (heq ▸ h ▸ mem_map_of_mem (of_mem_mergeBy ho))
    dsimp only
    rw [map_cons, mem_cons, or_iff_right hne]

theorem followsShared_both {k : κ} {ks ls : List κ} (hk : k ∉ ks) :
    FollowsShared (k :: ls) (k :: ks) ↔ FollowsShared ls ks := by
  have hcongr : FollowsShared (k :: ls) ks ↔ FollowsShared ls ks :=
    followsShared_congr fun z hz => by
      have hne : z ≠ k := fun h => hk (h ▸ hz)
      simp [hne]
  rw [FollowsShared, hcongr]
  simp

/-- **The merge is right** exactly if in both lists every key that is not shared is smaller than the
next one that is. -/
theorem separates_iff {W : κ → κ → Prop} (hasymm : ∀ a b, W a b → ¬ W b a)
    (hxs : (xs.map key).Pairwise W) (hys : (ys.map key).Pairwise W) :
    Separates key xs ys ↔
      FollowsShared (ys.map key) (xs.map key) ∧ FollowsShared (xs.map key) (ys.map key) := by
  have hnotMem : ∀ {k : κ} {ks : List κ}, (k :: ks).Pairwise W → k ∉ ks := by
    intro k ks h hk
    have := (pairwise_cons.mp h).1 k hk
    exact hasymm k k this this
  induction xs, ys using mergeBy.induct key with
  | case1 ys =>
    refine iff_of_true (fun o ho => ?_) ⟨trivial, followsShared_nil _⟩
    rw [mergeBy] at ho
    obtain ⟨b, -, rfl⟩ := mem_map.mp ho
    simp
  | case2 x xs =>
    refine iff_of_true (fun o ho => ?_) ⟨followsShared_nil _, trivial⟩
    rw [mergeBy] at ho
    obtain ⟨a, -, rfl⟩ := mem_map.mp ho
    simp
  | case3 x xs y ys heq ih =>
    have hxs' := (pairwise_cons.mp hxs).2
    have hys' := (pairwise_cons.mp hys).2
    refine (separates_both heq (hnotMem hxs) (hnotMem hys)).trans ((ih hxs' hys').trans ?_)
    rw [map_cons, map_cons, ← heq, followsShared_both (hnotMem hxs), followsShared_both (heq ▸ hnotMem hys)]
  | case4 x xs y ys hne hlt ih =>
    have hxs' := (pairwise_cons.mp hxs).2
    refine (separates_left hlt).trans ((and_congr_right' (ih hxs' hys)).trans ?_)
    exact (followsShared_step hasymm hxs hys hlt).symm
  | case5 x xs y ys hne hnlt ih =>
    have hlt := lt_of_le_of_ne (not_lt.mp hnlt) (Ne.symm hne)
    have hys' := (pairwise_cons.mp hys).2
    -- the same step with the lists exchanged
    have hlater := (ih hxs hys').trans And.comm
    refine (separates_right hlt).trans ((and_congr_right' hlater).trans ?_)
    exact (followsShared_step hasymm hys hxs hlt).symm.trans And.comm

/-! ## What the merge reports -/

namespace Paired

def fst? : Paired α → Option α
  | .left a => some a
  | .right _ => none
  | .both a _ => some a

def snd? : Paired α → Option α
  | .left _ => none
  | .right b => some b
  | .both _ b => some b

def keyBy (key : α → κ) : Paired α → κ
  | .left a => key a
  | .right b => key b
  | .both a _ => key a

end Paired

open Paired

theorem mergeBy_nil (xs : List α) : mergeBy key xs [] = xs.map .left := by
  cases xs with
  | nil => rw [mergeBy, map_nil, map_nil]
  | cons x xs => rw [mergeBy]

theorem filterMap_fst?_mergeBy : (mergeBy key xs ys).filterMap fst? = xs := by
  induction xs, ys using mergeBy.induct key with
  | case1 ys =>
    rw [mergeBy, filterMap_map, filterMap_eq_nil_iff]
    intro b hb
    rfl
  | case2 x xs => simp [mergeBy, Function.comp_def, fst?]
  | case3 x xs y ys heq ih => simp [mergeBy_both heq, fst?, ih]
  | case4 x xs y ys hne hlt ih => simp [mergeBy_left hlt, fst?, ih]
  | case5 x xs y ys hne hnlt ih =>
    have hlt := lt_of_le_of_ne (not_lt.mp hnlt) (Ne.symm hne)
    rw [mergeBy_right hlt, filterMap_cons_none rfl, ih]

theorem filterMap_snd?_mergeBy : (mergeBy key xs ys).filterMap snd? = ys := by
  induction xs, ys using mergeBy.induct key with
  | case1 ys => simp [mergeBy, Function.comp_def, snd?]
  | case2 x xs =>
    rw [mergeBy, filterMap_map, filterMap_eq_nil_iff]
    intro a ha
    rfl
  | case3 x xs y ys heq ih => simp [mergeBy_both heq, snd?, ih]
  | case4 x xs y ys hne hlt ih => rw [mergeBy_left hlt, filterMap_cons_none rfl, ih]
  | case5 x xs y ys hne hnlt ih =>
    simp [mergeBy_right (lt_of_le_of_ne (not_lt.mp hnlt) (Ne.symm hne)), snd?, ih]

theorem mem_keys_mergeBy {k : κ} :
    k ∈ (mergeBy key xs ys).map (keyBy key) ↔ k ∈ xs.map key ∨ k ∈ ys.map key := by
  constructor
  · intro hk
    obtain ⟨o, ho, rfl⟩ := mem_map.mp hk
    have hmem := of_mem_mergeBy ho
    cases o with
    | left a => exact .inl (mem_map_of_mem hmem)
    | right b => exact .inr (mem_map_of_mem hmem)
    | both a b => exact .inl (mem_map_of_mem hmem.1)
  · rintro (hk | hk)
    · obtain ⟨a, ha, rfl⟩ := mem_map.mp hk
      have hfst : (mergeBy key xs ys).filterMap fst? = xs := filterMap_fst?_mergeBy
      rw [← hfst] at ha
      obtain ⟨o, ho, hoa⟩ := mem_filterMap.mp ha
      refine mem_map.mpr ⟨o, ho, ?_⟩
      cases o <;> cases hoa <;> rfl
    · obtain ⟨b, hb, rfl⟩ := mem_map.mp hk
      have hsnd : (mergeBy key xs ys).filterMap snd? = ys := filterMap_snd?_mergeBy
      rw [← hsnd] at hb
      obtain ⟨o, ho, hob⟩ := mem_filterMap.mp hb
      refine mem_map.mpr ⟨o, ho, ?_⟩
      have hmem := of_mem_mergeBy ho
      cases o with
      | left a => cases hob
      | right b' =>
        cases hob
        rfl
      | both a b' =>
        cases hob
        exact hmem.2.2

omit [LinearOrder κ] in
theorem mem_keys {os : List (Paired α)} {k : κ} (hk : k ∈ os.map (keyBy key)) :
    k ∈ (os.filterMap fst?).map key ∨ ∃ b, .right b ∈ os ∧ key b = k := by
  obtain ⟨o, ho, rfl⟩ := mem_map.mp hk
  cases o with
  | left a => exact .inl (mem_map_of_mem (mem_filterMap.mpr ⟨_, ho, rfl⟩))
  | right b => exact .inr ⟨b, ho, rfl⟩
  | both a b => exact .inl (mem_map_of_mem (mem_filterMap.mpr ⟨_, ho, rfl⟩))

omit [LinearOrder κ] in
theorem nodup_keys {os : List (Paired α)} (hfst : ((os.filterMap fst?).map key).Nodup)
    (hsnd : ((os.filterMap snd?).map key).Nodup)
    (hright : ∀ b, .right b ∈ os → key b ∉ (os.filterMap fst?).map key) :
    (os.map (keyBy key)).Nodup := by
  induction os with
  | nil => exact nodup_nil
  | cons o os ih =>
    have hlater : ∀ b, .right b ∈ os → key b ∉ (os.filterMap fst?).map key := by
      intro b hb hmem
      refine hright b (mem_cons_of_mem o hb) ?_
      exact ((sublist_cons_self o os).filterMap fst? |>.map key).subset hmem
    rw [map_cons, nodup_cons]
    cases o with
    | left a =>
      simp only [filterMap_cons, fst?, snd?, map_cons] at hfst hsnd hright
      obtain ⟨hnew, hfst⟩ := nodup_cons.mp hfst
      refine ⟨fun hmem => ?_, ih hfst hsnd hlater⟩
      rcases mem_keys hmem with hmem | ⟨b, hb, hkey⟩
      · exact hnew hmem
      · exact hright b (mem_cons_of_mem _ hb) (hkey ▸ mem_cons_self)
    | right b =>
      simp only [filterMap_cons, fst?, snd?, map_cons] at hfst hsnd hright
      obtain ⟨hnew, hsnd⟩ := nodup_cons.mp hsnd
      refine ⟨fun hmem => ?_, ih hfst hsnd hlater⟩
      rcases mem_keys hmem with hmem | ⟨b', hb', hkey⟩
      · exact hright b mem_cons_self hmem
      · have hb'snd : b' ∈ os.filterMap snd? := mem_filterMap.mpr ⟨_, hb', rfl⟩
        exact hnew (mem_map.mpr ⟨b', hb'snd, hkey⟩)
    | both a b =>
      simp only [filterMap_cons, fst?, snd?, map_cons] at hfst hsnd hright
      obtain ⟨hnew, hfst⟩ := nodup_cons.mp hfst
      refine ⟨fun hmem => ?_, ih hfst (nodup_cons.mp hsnd).2 hlater⟩
      rcases mem_keys hmem with hmem | ⟨b', hb', hkey⟩
      · exact hnew hmem
      · exact hright b' (mem_cons_of_mem _ hb') (hkey ▸ mem_cons_self)

theorem Separates.nodup (h : Separates key xs ys) (hxs : (xs.map key).Nodup)
    (hys : (ys.map key).Nodup) : ((mergeBy key xs ys).map (keyBy key)).Nodup := by
  have hfst : (mergeBy key xs ys).filterMap fst? = xs := filterMap_fst?_mergeBy
  have hsnd : (mergeBy key xs ys).filterMap snd? = ys := filterMap_snd?_mergeBy
  refine nodup_keys (hfst.symm ▸ hxs) (hsnd.symm ▸ hys) fun b hb => ?_
  rw [hfst]
  exact h _ hb

end MergeDiff
