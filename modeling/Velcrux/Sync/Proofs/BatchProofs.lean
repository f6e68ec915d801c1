import Velcrux.Sync.Batch

/-!
# A plan is a partition within its limits unless a byte count wraps around

Closed batches and the batch in progress are `Sized`: as long as their bytes fit into 64 bits, they
are counted right and keep the limit.
-/

namespace Velcrux.Sync

open List BatchedSyncPlan

namespace SmallFileBatchPlanner

variable {isRegularFile : String → Bool} {config : SmallFileBatchConfig} {actions : List FileAction}
  {total : UInt64} {a : FileAction} {s : Planning}

theorem bytesOf_concat (actions : List FileAction) (a : FileAction) :
    bytesOf (actions ++ [a]) = bytesOf actions + a.srcSize.toNat := by
  simp [bytesOf]

structure Sized (config : SmallFileBatchConfig) (actions : List FileAction) (total : UInt64) :
    Prop where
  files : actions.length ≤ config.maxBatchFiles
  bytes : bytesOf actions < 2 ^ 64 → total.toNat = bytesOf actions ∧
    (1 < actions.length → bytesOf actions ≤ config.maxBatchBytes.toNat)

theorem sized_nil : Sized config [] 0 := ⟨Nat.zero_le _, fun _ => ⟨rfl, nofun⟩⟩

theorem Sized.concat (h : Sized config actions total) (hfiles : actions.length < config.maxBatchFiles)
    (hbytes : actions ≠ [] → total + a.srcSize ≤ config.maxBatchBytes) :
    Sized config (actions ++ [a]) (total + a.srcSize) := by
  refine ⟨by rwa [length_append], fun hlt => ?_⟩
  rw [bytesOf_concat] at hlt ⊢
  have htotal := (h.bytes (by omega)).1
  have hsum : (total + a.srcSize).toNat = bytesOf actions + a.srcSize.toNat := by
    rw [UInt64.toNat_add, htotal, Nat.mod_eq_of_lt hlt]
  refine ⟨hsum, fun hmany => ?_⟩
  rw [← hsum]
  exact UInt64.le_iff_toNat_le.mp (hbytes (by rintro rfl; simp at hmany))

structure Planned (isRegularFile : String → Bool) (config : SmallFileBatchConfig)
    (seen : List FileAction) (s : Planning) : Prop where
  individual : s.individualActions = seen.filter fun a => !isBatched isRegularFile config a
  batched : s.batches.flatMap SmallFileBatch.actions ++ s.currentBatchActions =
    seen.filter (isBatched isRegularFile config)
  count : s.smallFilesCount = (seen.filter (isBatched isRegularFile config)).length
  closed : ∀ b ∈ s.batches, b.actions ≠ [] ∧ Sized config b.actions b.totalBytes
  current : Sized config s.currentBatchActions s.currentBatchBytes

namespace Planned

variable {seen : List FileAction} (h : Planned isRegularFile config seen s)
include h

theorem closeBatch (hne : s.currentBatchActions ≠ []) :
    Planned isRegularFile config seen s.closeBatch := by
  refine ⟨h.individual, ?_, h.count, ?_, sized_nil⟩
  · simpa [Planning.closeBatch] using h.batched
  · intro b hb
    rcases mem_append.mp hb with hb | hb
    · exact h.closed b hb
    · obtain rfl := mem_singleton.mp hb
      exact ⟨hne, h.current⟩

theorem finish : Planned isRegularFile config seen s.finish ∧ s.finish.currentBatchActions = [] := by
  unfold Planning.finish
  split_ifs with hne
  · exact ⟨h.closeBatch hne, rfl⟩
  · exact ⟨h, not_ne_iff.mp hne⟩

theorem makeRoom (hpos : 1 ≤ config.maxBatchFiles) (size : UInt64) :
    let s' := s.makeRoom config size
    Planned isRegularFile config seen s' ∧ s'.currentBatchActions.length < config.maxBatchFiles ∧
      (s'.currentBatchActions ≠ [] → s'.currentBatchBytes + size ≤ config.maxBatchBytes) := by
  simp only [Planning.makeRoom]
  split_ifs with hfull
  · have hne : s.currentBatchActions ≠ [] := by
      intro hnil
      rw [hnil, length_nil] at hfull
      exact hfull.elim (fun h => h.2 rfl) fun h => by omega
    exact ⟨h.closeBatch hne, hpos, fun h => absurd rfl h⟩
  · rw [not_or, not_and] at hfull
    exact ⟨h, not_le.mp hfull.2, fun hne => UInt64.not_lt.mp fun hlt => hfull.1 hlt hne⟩

theorem add (hpos : 1 ≤ config.maxBatchFiles) (a : FileAction) :
    Planned isRegularFile config (seen ++ [a]) (s.add isRegularFile config a) := by
  unfold Planning.add
  split_ifs with hbatched
  · obtain ⟨h, hfiles, hbytes⟩ := h.makeRoom hpos a.srcSize
    refine ⟨?_, ?_, ?_, h.closed, h.current.concat hfiles hbytes⟩
    · simp [h.individual, hbatched]
    · simp [← append_assoc, h.batched, hbatched]
    · simp [h.count, hbatched]
  · refine ⟨?_, ?_, ?_, h.closed, h.current⟩
    · simp [h.individual, hbatched]
    · simpa [hbatched] using h.batched
    · simpa [hbatched] using h.count

theorem foldl (hpos : 1 ≤ config.maxBatchFiles) (actions : List FileAction) :
    Planned isRegularFile config (seen ++ actions)
      (actions.foldl (Planning.add isRegularFile config) s) := by
  induction actions generalizing seen s with
  | nil => rwa [append_nil]
  | cons a actions ih =>
    rw [append_cons]
    exact ih (h.add hpos a)

end Planned

/-! ## When a sum wraps around -/

/-- Some batch, closed or in progress, has more bytes than can be counted. -/
def Wrapped (s : Planning) : Prop :=
  2 ^ 64 ≤ bytesOf s.currentBatchActions ∨ ∃ b ∈ s.batches, 2 ^ 64 ≤ bytesOf b.actions

theorem wrapped_closeBatch : Wrapped s.closeBatch ↔ Wrapped s := by
  simp only [Wrapped, Planning.closeBatch, mem_append, mem_singleton, or_and_right, exists_or,
    exists_eq_left]
  constructor
  · rintro (h | h | h)
    · exact absurd h (by decide)
    · exact .inr h
    · exact .inl h
  · exact fun h => .inr h.symm

theorem wrapped_finish : (∃ b ∈ s.finish.batches, 2 ^ 64 ≤ bytesOf b.actions) ↔ Wrapped s := by
  have hend : Wrapped s.finish ↔ ∃ b ∈ s.finish.batches, 2 ^ 64 ≤ bytesOf b.actions := by
    refine or_iff_right fun h => absurd h ?_
    have hnil : s.finish.currentBatchActions = [] := by
      unfold Planning.finish
      split_ifs with hne
      · rfl
      · exact not_ne_iff.mp hne
    rw [hnil]
    decide
  rw [← hend, Planning.finish]
  split_ifs
  · exact wrapped_closeBatch
  · rfl

def put (s : Planning) (a : FileAction) : Planning :=
  { s with
    currentBatchActions := s.currentBatchActions ++ [a]
    currentBatchBytes := s.currentBatchBytes + a.srcSize
    smallFilesCount := s.smallFilesCount + 1 }

theorem add_eq (hbatched : isBatched isRegularFile config a = true) :
    s.add isRegularFile config a = put (s.makeRoom config a.srcSize) a := by
  simp only [Planning.add, hbatched, if_true, put]

theorem Wrapped.put (h : Wrapped s) : Wrapped (put s a) := by
  refine h.imp_left fun h => ?_
  rw [SmallFileBatchPlanner.put, bytesOf_concat]
  omega

theorem Wrapped.add (h : Wrapped s) : Wrapped (s.add isRegularFile config a) := by
  by_cases hbatched : isBatched isRegularFile config a = true
  · rw [add_eq hbatched]
    refine Wrapped.put ?_
    simp only [Planning.makeRoom]
    split_ifs
    · exact wrapped_closeBatch.mpr h
    · exact h
  · rw [Planning.add, if_neg hbatched]
    exact h

theorem Wrapped.foldl (h : Wrapped s) (actions : List FileAction) :
    Wrapped (actions.foldl (Planning.add isRegularFile config) s) := by
  induction actions generalizing s with
  | nil => exact h
  | cons a actions ih => exact ih h.add

def smallSizes (isRegularFile : String → Bool) (config : SmallFileBatchConfig)
    (actions : List FileAction) : List ℕ :=
  (actions.filter (isBatched isRegularFile config)).map fun a => a.srcSize.toNat

theorem not_wrapped_single (hs : ¬ Wrapped s) (hcurrent : s.currentBatchActions = []) :
    ¬ Wrapped (put s a) := by
  rintro (hw | hw)
  · have := a.srcSize.toNat_lt
    simp [put, hcurrent, bytesOf] at hw
    omega
  · exact hs (.inr hw)

theorem makeRoom_eq (hcount : s.currentBatchBytes.toNat = bytesOf s.currentBatchActions)
    (size : UInt64) : s.makeRoom config size =
      if (config.maxBatchBytes.toNat < (bytesOf s.currentBatchActions + size.toNat) % 2 ^ 64 ∧
          s.currentBatchActions ≠ []) ∨ config.maxBatchFiles ≤ s.currentBatchActions.length then
        s.closeBatch
      else s := by
  simp only [Planning.makeRoom, UInt64.lt_iff_toNat_lt, UInt64.toNat_add, hcount]

/-- The plan wraps around exactly where the exact sums say so. -/
theorem not_wrapped_foldl_iff {seen : List FileAction} (hpos : 1 ≤ config.maxBatchFiles)
    (h : Planned isRegularFile config seen s) (hs : ¬ Wrapped s) (actions : List FileAction) :
    ¬ Wrapped (actions.foldl (Planning.add isRegularFile config) s) ↔
      NoWrap config.maxBatchBytes.toNat config.maxBatchFiles (bytesOf s.currentBatchActions)
        s.currentBatchActions.length (smallSizes isRegularFile config actions) := by
  induction actions generalizing seen s with
  | nil => simpa [smallSizes, NoWrap] using hs
  | cons a actions ih =>
    have hnext := h.add hpos a
    rw [foldl_cons]
    by_cases hbatched : isBatched isRegularFile config a = true
    · have hsizes : smallSizes isRegularFile config (a :: actions) =
          a.srcSize.toNat :: smallSizes isRegularFile config actions := by
        simp [smallSizes, hbatched]
      rw [hsizes, NoWrap]
      have hlt : bytesOf s.currentBatchActions < 2 ^ 64 := by
        by_contra hge
        exact hs (.inl (not_lt.mp hge))
      have hsize := a.srcSize.toNat_lt
      have hmax := config.maxBatchBytes.toNat_lt
      have hroom : s.makeRoom config a.srcSize = _ :=
        makeRoom_eq (h.current.bytes hlt).1 a.srcSize
      rw [add_eq hbatched] at hnext ⊢
      -- the file is alone in its batch
      have hsingle : ∀ s' : Planning, s.makeRoom config a.srcSize = s' →
          s'.currentBatchActions = [] → ¬ Wrapped s' →
          (¬ Wrapped (actions.foldl (Planning.add isRegularFile config)
            (put (s.makeRoom config a.srcSize) a)) ↔
          NoWrap config.maxBatchBytes.toNat config.maxBatchFiles a.srcSize.toNat 1
            (smallSizes isRegularFile config actions)) := by
        rintro s' rfl hcurrent hs'
        have := ih hnext (not_wrapped_single hs' hcurrent)
        simpa [put, hcurrent, bytesOf] using this
      have hclosed : ¬ Wrapped s.closeBatch := mt wrapped_closeBatch.mp hs
      split_ifs with halone hfits
      · rcases halone with hnil | hfull
        · rw [length_eq_zero_iff] at hnil
          refine hsingle s ?_ hnil hs
          rw [hroom, if_neg]
          simp [hnil]
          omega
        · exact hsingle _ (by rw [hroom, if_pos (.inr hfull)]) rfl hclosed
      · rw [not_or, not_le] at halone
        have hkeep : s.makeRoom config a.srcSize = s := by
          rw [hroom, Nat.mod_eq_of_lt (by omega), if_neg (by omega)]
        rw [hkeep] at hnext ⊢
        have hgood : ¬ Wrapped (put s a) := by
          rintro (hw | hw)
          · rw [put, bytesOf_concat] at hw
            omega
          · exact hs (.inr hw)
        have := ih hnext hgood
        simpa only [put, bytesOf_concat, length_append, length_singleton] using this
      · rw [not_or, not_le] at halone
        have hne : s.currentBatchActions ≠ [] := fun hnil => halone.1 (by rw [hnil, length_nil])
        by_cases hwrap : 2 ^ 64 ≤ bytesOf s.currentBatchActions + a.srcSize.toNat →
            config.maxBatchBytes.toNat < bytesOf s.currentBatchActions + a.srcSize.toNat - 2 ^ 64
        · rw [and_iff_right hwrap]
          refine hsingle _ ?_ rfl hclosed
          rw [hroom, if_pos (.inl ⟨by omega, hne⟩)]
        · refine iff_of_false (not_not.mpr (Wrapped.foldl ?_ actions)) fun hand => hwrap hand.1
          rw [hroom, if_neg (by omega)]
          refine .inl ?_
          rw [put, bytesOf_concat]
          omega
    · have hsizes : smallSizes isRegularFile config (a :: actions) =
          smallSizes isRegularFile config actions := by
        simp [smallSizes, hbatched]
      have hadd : s.add isRegularFile config a =
          { s with individualActions := s.individualActions ++ [a] } := by
        simp [Planning.add, hbatched]
      rw [hsizes]
      rw [hadd] at hnext ⊢
      exact ih hnext hs

/-- **Batch planning.** A plan is a partition of the actions within the limits exactly if the exact
sums of the sizes never wrap around into the limit. -/
theorem partitions_iff (isRegularFile : String → Bool) (config : SmallFileBatchConfig)
    (hpos : 1 ≤ config.maxBatchFiles) (actions : List FileAction) :
    Partitions config actions (plan isRegularFile config actions) ↔
      (config.enabled = true → NoWrap config.maxBatchBytes.toNat config.maxBatchFiles 0 0
        (smallSizes isRegularFile config actions)) := by
  have hstart : Planned isRegularFile config [] ⟨[], [], [], 0, 0⟩ :=
    ⟨rfl, rfl, rfl, by simp, sized_nil⟩
  have hiff : _ ↔ NoWrap config.maxBatchBytes.toNat config.maxBatchFiles 0 0 _ :=
    not_wrapped_foldl_iff hpos hstart (by simp [Wrapped, bytesOf]) actions
  by_cases hskip : (!config.enabled || actions.isEmpty) = true
  · rw [plan, if_pos hskip]
    refine iff_of_true ⟨.rfl, nil_sublist _, .refl _, by simp, by simp, by simp, rfl, rfl⟩ ?_
    intro henabled
    obtain rfl : actions = [] := by simpa [henabled] using hskip
    trivial
  · have henabled : config.enabled = true := by
      rw [Bool.or_eq_true, not_or] at hskip
      simpa using hskip.1
    rw [plan, if_neg hskip, forall_prop_of_true henabled, ← hiff, ← wrapped_finish]
    dsimp only
    obtain ⟨h, hnil⟩ := (hstart.foldl hpos actions).finish
    have hbatched := h.batched
    rw [hnil, append_nil] at hbatched
    constructor
    · rintro hparts ⟨b, hb, hwraps⟩
      have := hparts.total b hb
      have := b.totalBytes.toNat_lt
      omega
    · intro hlt
      have hbytes := fun b hb => (h.closed b hb).2.bytes (not_le.mp fun hge => hlt ⟨b, hb, hge⟩)
      refine ⟨?_, ?_, ?_, fun b hb => ⟨(h.closed b hb).1, (h.closed b hb).2.files⟩,
        fun b hb => (hbytes b hb).2, fun b hb => (hbytes b hb).1, ?_, rfl⟩
      · rw [batchedActions, hbatched, h.individual]
        exact filter_append_perm _ _
      · rw [batchedActions, hbatched]
        exact filter_sublist
      · rw [h.individual]
        exact filter_sublist
      · rw [batchedActions, hbatched]
        exact h.count

def addOf (path : String) (size : UInt64) : FileAction := ⟨path, .add, size, 0, none, size, 0⟩

def twoOf (size : UInt64) : List FileAction := [addOf "a" size, addOf "b" size]

/-- Two batches, and a file that is not small. -/
theorem partitions_fourFiles :
    let config : SmallFileBatchConfig := ⟨true, 6, 8, 3⟩
    let actions := [addOf "a" 3, addOf "b" 4, addOf "c" 9, addOf "d" 5]
    (plan (fun _ => true) config actions).batches.map (·.totalBytes) = [7, 5] ∧
      Partitions config actions (plan (fun _ => true) config actions) := by
  refine ⟨by decide, (partitions_iff _ _ (by decide) _).mpr fun _ => ?_⟩
  have hsizes : smallSizes (fun _ => true) ⟨true, 6, 8, 3⟩
      [addOf "a" 3, addOf "b" 4, addOf "c" 9, addOf "d" 5] = [3, 4, 5] := by decide
  rw [hsizes]
  simp [NoWrap]

/-- Two files of `2 ^ 63` bytes are counted as none, and put into one batch. -/
theorem not_partitions_twoOf :
    let config : SmallFileBatchConfig := ⟨true, 0x8000000000000000, 0x8000000000000000, 2⟩
    ¬ Partitions config (twoOf 0x8000000000000000)
      (plan (fun _ => true) config (twoOf 0x8000000000000000)) := by
  intro config h
  have hbytes := h.bytes
  simp [plan, config, twoOf, addOf, Planning.add, isBatched, Planning.makeRoom, Planning.finish,
    Planning.closeBatch, bytesOf] at hbytes

end SmallFileBatchPlanner

end Velcrux.Sync
