import Velcrux.Chunking.Boundaries
import Velcrux.Chunking.Proofs.EngineProofs

/-!
# Boundaries do not depend on the reads, and resynchronise

`pushAll_createChunker` says what pushing an input in any portions returns; both results are read
off it. Up to the offset, the state after a cut is that of a fresh chunker (`Rested`).
-/

namespace Velcrux.Chunking

open Cutting Chunker List ChunkBoundary

variable {c : Chunker}

theorem pushAll_eq {p : Bytes} (hp : p.length = c.inChunk) (hr : c.Ready) (bufs : List Bytes) :
    c.pushAll bufs = .ok ((layOut c.nextOffset
      (let r := scan cutStep c p bufs.flatten
        if r.2.2 = [] then r.2.1 else r.2.1 ++ [r.2.2])).map toBoundary) := by
  induction bufs generalizing c p with
  | nil =>
    rw [pushAll, finish_of_ready hr, ← hp]
    by_cases h : p = []
    · subst h
      rfl
    · simp [Except.map, scan, layOut, toBoundary, h]
  | cons buf bufs ih =>
    obtain ⟨t1, t2, t3⟩ := scan_tracks hp hr buf
    rw [pushAll, push_eq_feedAll hr, feedAll_eq_scan hp]
    dsimp only
    rw [ih t1 t3, flatten_cons, scan_append]
    dsimp only [Except.map]
    rw [t2]
    split_ifs with h
    · rw [layOut_append, map_append]
    · rw [append_assoc, layOut_append _ (scan cutStep c p buf).2.1, map_append]

variable (mode : ChunkMode) (params : ChunkParams) (bufs : List Bytes)

/-- **What a fresh chunker finds in an input, read in any portions.** -/
theorem pushAll_createChunker : (createChunker mode params).pushAll bufs =
      .ok ((layOut 0 (pieces cutStep (createChunker mode params) bufs.flatten)).map toBoundary) := by
  have h := pushAll_eq (p := []) (inChunk_createChunker mode params).symm
    (ready_createChunker mode params) bufs
  rw [nextOffset_createChunker] at h
  exact h

theorem contiguous_layOut (off : ℕ) (ps : List Bytes) :
    Contiguous off ((layOut off ps).map toBoundary) := by
  induction ps generalizing off with
  | nil => trivial
  | cons p ps ih => exact ⟨rfl, ih _⟩

theorem length_layOut_boundaries (off : ℕ) (ps : List Bytes) :
    (((layOut off ps).map toBoundary).map ChunkBoundary.length).sum = ps.flatten.length := by
  induction ps generalizing off with
  | nil => rfl
  | cons p ps ih => simpa [layOut, toBoundary] using ih _

/-- **The boundaries of an input do not depend on the read sizes.** Whatever buffers an input comes
in, empty ones included, the chunker returns the boundaries it returns for the whole input at once;
they follow each other from 0, none is empty, and their lengths add up to the input's. -/
theorem pushAll_split : ∃ bs, (createChunker mode params).pushAll bufs = .ok bs ∧
      (createChunker mode params).pushAll [bufs.flatten] = .ok bs ∧
      Contiguous 0 bs ∧ (∀ b ∈ bs, 0 < b.length) ∧
      (bs.map ChunkBoundary.length).sum = bufs.flatten.length := by
  refine ⟨_, pushAll_createChunker mode params bufs, ?_, contiguous_layOut _ _, ?_, ?_⟩
  · rw [pushAll_createChunker]
    simp
  · intro b hb
    obtain ⟨piece, hpiece, rfl⟩ := mem_map.mp hb
    exact length_pos_iff.mpr (ne_nil_of_mem_pieces cutStep (mem_of_mem_layOut hpiece))
  · rw [length_layOut_boundaries, pieces_flatten]

/-! ## The sizes of the chunks -/

theorem ready_feedAll (hr : c.Ready) (xs : Bytes) : (feedAll c xs).1.Ready := by
  induction xs generalizing c with
  | nil => exact hr
  | cons b bs ih => exact ih (cutStep_ready b hr)

theorem pushEach_eq (hr : c.Ready) (bufs : List Bytes) :
    c.pushEach bufs = .ok (feedAll c bufs.flatten) := by
  induction bufs generalizing c with
  | nil => rfl
  | cons buf bufs ih =>
    rw [pushEach, push_eq_feedAll hr, flatten_cons, feedAll_append]
    dsimp only
    rw [ih (ready_feedAll hr buf)]
    rfl

theorem feedAll_fastCdc_over {params : ChunkParams} (hp : params.min = params.max) {xs : Bytes}
    (hlen : params.min < xs.length) :
    ⟨0, params.min + 1⟩ ∈ (feedAll (createChunker .fastCdc params) xs).2 := by
  have htake : (xs.take params.min).length = params.min := by simp; omega
  have hskip := feedAll_fastCdc_skip (.new params) (xs.take params.min)
    (by simp [FastCdcChunker.new])
  rw [← take_append_drop params.min xs, feedAll_append, createChunker, hskip, htake,
    drop_eq_getElem_cons hlen, feedAll]
  simp [cutStep, FastCdcChunker.new, nextOffset, inChunk, hp]

theorem limit_le_max {mode : ChunkMode} {params : ChunkParams}
    (h : ¬ (mode = .fastCdc ∧ params.min = params.max)) :
    (createChunker mode params).limit ≤ params.max ∧
      params.min ≤ (createChunker mode params).least := by
  have hparams := params.accepted
  cases mode with
  | cdc => exact ⟨Nat.le_refl _, Nat.le_refl _⟩
  | fixed =>
    simp only [createChunker, FixedChunker.new, limit, least]
    omega
  | fastCdc =>
    simp only [true_and] at h
    simp only [createChunker, FastCdcChunker.new, limit, least]
    omega

/-- **The sizes of the chunks.** They are bounded as the parameters say, unless FastCDC runs with
equal sizes on an input longer than one chunk. -/
theorem sizesBounded_iff : SizesBounded mode params bufs ↔
      ¬ (mode = .fastCdc ∧ params.min = params.max ∧ params.min < bufs.flatten.length) := by
  have hready := ready_createChunker mode params
  have heach := pushEach_eq hready bufs
  have hfinish := finish_of_ready (ready_feedAll hready bufs.flatten)
  constructor
  · rintro ⟨c, found, last, hpush, -, hmax, -⟩ ⟨rfl, hp, hlen⟩
    have hfound := congrArg Prod.snd (Except.ok.inj (heach.symm.trans hpush))
    have hover := hmax _ (mem_append_left _ (hfound ▸ feedAll_fastCdc_over hp hlen))
    dsimp only at hover
    omega
  · intro hcond
    by_cases hequal : mode = .fastCdc ∧ params.min = params.max
    · -- the input is within the bytes skipped
      obtain ⟨rfl, hp⟩ := hequal
      have hskip : bufs.flatten.length ≤ params.min := by
        by_contra hlt
        exact hcond ⟨rfl, hp, by omega⟩
      rw [createChunker, feedAll_fastCdc_skip _ _ (by simpa [FastCdcChunker.new] using hskip)] at *
      refine ⟨_, _, _, heach, hfinish, fun b hb => ?_, by simp⟩
      split_ifs at hb with h0
      · simp at hb
      · simp only [nil_append, Option.toList_some, mem_singleton] at hb
        simpa [hb, inChunk, FastCdcChunker.new, ← hp] using hskip
    · obtain ⟨hmax, hmin⟩ := limit_le_max hequal
      obtain ⟨hbs, hend⟩ := feedAll_bounds (inChunk_lt_limit_createChunker mode params) bufs.flatten
      refine ⟨_, _, _, heach, hfinish, fun b hb => ?_, fun b hb => Nat.le_trans hmin (hbs b hb).1⟩
      rcases mem_append.1 hb with hb | hb
      · exact Nat.le_trans (hbs b hb).2 hmax
      · split_ifs at hb with h0
        · simp at hb
        · simp only [Option.toList_some, mem_singleton] at hb
          rw [hb]
          exact Nat.le_trans (Nat.le_of_lt hend) hmax

theorem not_sizesBounded_ones :
    ¬ SizesBounded .fastCdc ⟨1, 1, 1, by decide, by decide⟩ [[0, 0]] := by
  rintro ⟨c, found, last, hpush, -, hmax, -⟩
  cases hpush
  exact absurd (hmax ⟨0, 2⟩ (mem_append_left _ (by decide))) (by decide)

/-! ## Behind a cut -/

namespace Chunker

def withOffset (n : ℕ) : Chunker → Chunker
  | .fixed c => .fixed { c with nextOffset := n }
  | .rolling c => .rolling { c with nextOffset := n }
  | .fastCdc c => .fastCdc { c with nextOffset := n }

def reset : Chunker → Chunker
  | .fixed c => .fixed { c with inChunk := 0, nextOffset := 0 }
  | .rolling c => .rolling { c with sum := 0, inChunk := 0, nextOffset := 0 }
  | .fastCdc c => .fastCdc { c with fingerprint := 0, inChunk := 0, nextOffset := 0 }

theorem reset_cutStep (c : Chunker) (b : UInt8) : (c.cutStep b).1.reset = c.reset := by
  cases c with
  | fixed c =>
    simp only [cutStep]
    split_ifs <;> rfl
  | rolling c =>
    simp only [cutStep, RollingChunker.feed]
    split_ifs <;> rfl
  | fastCdc c =>
    simp only [cutStep]
    split_ifs <;> rfl

theorem withOffset_of_cut {b : UInt8} (h : (c.cutStep b).2 = true) :
    (c.cutStep b).1.withOffset 0 = c.reset := by
  cases c with
  | fixed c =>
    simp only [cutStep] at h ⊢
    split_ifs at h ⊢
    -- the fixed-size chunker has no hash to forget
    rfl
  | rolling c =>
    simp only [cutStep, RollingChunker.feed] at h ⊢
    split_ifs at h ⊢
    · rfl
    · simp at h
  | fastCdc c =>
    simp only [cutStep] at h ⊢
    split_ifs at h ⊢ <;> rfl

theorem cutStep_withOffset (n : ℕ) (c : Chunker) (b : UInt8) :
    ((c.withOffset n).cutStep b).2 = (c.cutStep b).2 ∧
      ((c.withOffset n).cutStep b).1.withOffset 0 = (c.cutStep b).1.withOffset 0 := by
  cases c with
  | fixed c =>
    simp only [cutStep, withOffset]
    split_ifs <;> exact ⟨rfl, rfl⟩
  | rolling c =>
    simp only [cutStep, withOffset, RollingChunker.feed]
    split_ifs <;> exact ⟨rfl, rfl⟩
  | fastCdc c =>
    simp only [cutStep, withOffset]
    split_ifs <;> exact ⟨rfl, rfl⟩

theorem cutStep_congr {c d : Chunker} (h : c.withOffset 0 = d.withOffset 0) (b : UInt8) :
    (c.cutStep b).2 = (d.cutStep b).2 ∧
      (c.cutStep b).1.withOffset 0 = (d.cutStep b).1.withOffset 0 := by
  obtain ⟨hc1, hc2⟩ := cutStep_withOffset 0 c b
  obtain ⟨hd1, hd2⟩ := cutStep_withOffset 0 d b
  rw [h] at hc1 hc2
  exact ⟨hc1.symm.trans hd1, hc2.symm.trans hd2⟩

end Chunker

theorem reset_createChunker : (createChunker mode params).reset = createChunker mode params := by
  cases mode <;> rfl

theorem withOffset_createChunker :
    (createChunker mode params).withOffset 0 = createChunker mode params := by
  cases mode <;> rfl

theorem pieces_behind_cut {mode : ChunkMode} {params : ChunkParams} {p : Bytes}
    (h : (scan cutStep (createChunker mode params) [] p).2.2 = []) (s : Bytes) :
    pieces cutStep (createChunker mode params) (p ++ s) =
      (scan cutStep (createChunker mode params) [] p).2.1 ++
        pieces cutStep (createChunker mode params) s := by
  set fresh := createChunker mode params with hfresh
  have hrest : (scan cutStep fresh [] p).1.withOffset 0 = fresh.withOffset 0 := by
    rw [withOffset_createChunker]
    refine scan_rested cutStep (I := fun c => c.reset = fresh) (R := fun c => c.withOffset 0 = fresh)
      (fun c b hc => (reset_cutStep c b).trans hc) (fun c b hc hcut => ?_) ?_ (fun _ => ?_) h
    · exact (withOffset_of_cut hcut).trans hc
    · exact reset_createChunker mode params
    · exact withOffset_createChunker mode params
  rw [pieces_append_of_scan cutStep h,
    pieces_congr cutStep
      (fun c d b hcd => cutStep_congr hcd b) hrest]

theorem bytesIn_layOut (pre : Bytes) (qs : List Bytes) :
    ((layOut pre.length qs).map toBoundary).map (bytesIn (pre ++ qs.flatten)) = qs := by
  induction qs generalizing pre with
  | nil => rfl
  | cons q qs ih =>
    have h := ih (pre ++ q)
    rw [length_append, append_assoc] at h
    rw [layOut, map_cons, map_cons, flatten_cons, h]
    simp [toBoundary, bytesIn]

theorem boundariesFrom_split {ps : List Bytes} (hne : ∀ q ∈ ps, q ≠ []) (qs : List Bytes) :
    boundariesFrom ps.flatten.length ((layOut 0 (ps ++ qs)).map toBoundary) =
      (layOut ps.flatten.length qs).map toBoundary := by
  rw [boundariesFrom, layOut_append, map_append, filter_append, Nat.zero_add]
  have hbefore : ((layOut 0 ps).map toBoundary).filter (ps.flatten.length ≤ ·.offset) = [] := by
    refine filter_eq_nil_iff.mpr fun b hb => ?_
    obtain ⟨c, hc, rfl⟩ := mem_map.mp hb
    have h1 := bounds_of_mem_layOut hc
    have h2 := length_pos_iff.mpr (hne _ (mem_of_mem_layOut hc))
    rw [decide_eq_true_eq]
    show ¬ ps.flatten.length ≤ c.1
    omega
  have hbehind : ((layOut ps.flatten.length qs).map toBoundary).filter
      (ps.flatten.length ≤ ·.offset) = (layOut ps.flatten.length qs).map toBoundary := by
    refine filter_eq_self.mpr fun b hb => ?_
    obtain ⟨c, hc, rfl⟩ := mem_map.mp hb
    simpa [toBoundary] using (bounds_of_mem_layOut hc).1
  rw [hbefore, hbehind, nil_append]

theorem relativeTo_layOut (k : ℕ) (qs : List Bytes) :
    ((layOut k qs).map toBoundary).map (relativeTo k) =
      (layOut 0 qs).map toBoundary := by
  have h := layOut_add 0 k qs
  rw [Nat.zero_add] at h
  rw [h]
  simp [toBoundary, relativeTo]

/-- Behind a cut at `|p|` the boundaries, counted from there, are those of the rest of the input
alone, and so are the chunks. -/
theorem boundaries_behind_cut {mode : ChunkMode} {params : ChunkParams} {p s : Bytes}
    {bufs : List Bytes} (hin : bufs.flatten = p ++ s) {bs : List ChunkBoundary}
    (hbs : (createChunker mode params).pushAll bufs = .ok bs)
    (hcut : ∃ b ∈ bs, b.endOff = p.length) :
    (boundariesFrom p.length bs).map (relativeTo p.length) =
        (layOut 0 (pieces cutStep (createChunker mode params) s)).map toBoundary ∧
      (boundariesFrom p.length bs).map (bytesIn (p ++ s)) =
        pieces cutStep (createChunker mode params) s := by
  rw [pushAll_createChunker, hin, Except.ok.injEq] at hbs
  subst hbs
  obtain ⟨b, hb, hend⟩ := hcut
  obtain ⟨c, hc, rfl⟩ := mem_map.mp hb
  by_cases hs : s = []
  · -- the cut is the end of the input: nothing starts behind it
    subst hs
    rw [append_nil]
    have hne : ∀ q ∈ pieces cutStep (createChunker mode params) p, q ≠ [] := fun q hq =>
      ne_nil_of_mem_pieces cutStep hq
    have hnone := boundariesFrom_split hne []
    rw [append_nil, pieces_flatten] at hnone
    rw [hnone]
    exact ⟨rfl, rfl⟩
  · have hrest := scan_rest_eq_nil_of_cut hs hc hend
    have hflat := scan_flatten cutStep (createChunker mode params) [] p
    rw [hrest, append_nil, nil_append] at hflat
    have hsplit := pieces_behind_cut hrest s
    set ps := (scan cutStep (createChunker mode params) [] p).2.1
    set qs := pieces cutStep (createChunker mode params) s with hqs
    have hne : ∀ q ∈ ps, q ≠ [] := fun q hq => ne_nil_of_mem_scan cutStep hq
    have hfrom := boundariesFrom_split hne qs
    rw [hflat] at hfrom
    rw [hsplit, hfrom]
    refine ⟨relativeTo_layOut _ _, ?_⟩
    have hbytes := bytesIn_layOut p qs
    rwa [hqs, pieces_flatten] at hbytes

/-- **Chunking resynchronises.** When two inputs end in the same `s` and both are cut where it
starts, then from there on both have the same boundaries up to the shift, the last one included, and
the same chunks. -/
theorem boundaries_resync {mode : ChunkMode} {params : ChunkParams} {p q s : Bytes}
    {bufs bufs' : List Bytes} (hp : bufs.flatten = p ++ s) (hq : bufs'.flatten = q ++ s)
    {bs cs : List ChunkBoundary} (hbs : (createChunker mode params).pushAll bufs = .ok bs)
    (hcs : (createChunker mode params).pushAll bufs' = .ok cs)
    (hcut : ∃ b ∈ bs, b.endOff = p.length) (hcut' : ∃ c ∈ cs, c.endOff = q.length) :
    (boundariesFrom p.length bs).map (relativeTo p.length) =
        (boundariesFrom q.length cs).map (relativeTo q.length) ∧
      (boundariesFrom p.length bs).map (bytesIn (p ++ s)) =
        (boundariesFrom q.length cs).map (bytesIn (q ++ s)) := by
  obtain ⟨h1, h2⟩ := boundaries_behind_cut hp hbs hcut
  obtain ⟨h3, h4⟩ := boundaries_behind_cut hq hcs hcut'
  exact ⟨h1.trans h3.symm, h2.trans h4.symm⟩

def tinyParams : ChunkParams := ⟨1, 2, 3, by decide, by decide⟩

/-- Two files with different beginnings of different lengths, read in different portions. -/
theorem boundaries_resync_tiny :
    (boundariesFrom 2 [⟨0, 2⟩, ⟨2, 2⟩, ⟨4, 1⟩]).map (relativeTo 2) =
        (boundariesFrom 3 [⟨0, 3⟩, ⟨3, 2⟩, ⟨5, 1⟩]).map (relativeTo 3) ∧
      (boundariesFrom 2 [⟨0, 2⟩, ⟨2, 2⟩, ⟨4, 1⟩]).map (bytesIn ([1, 2] ++ [3, 4, 5])) =
        (boundariesFrom 3 [⟨0, 3⟩, ⟨3, 2⟩, ⟨5, 1⟩]).map
          (bytesIn ([10, 20, 3] ++ [3, 4, 5])) :=
  @boundaries_resync .fastCdc tinyParams [1, 2] [10, 20, 3] [3, 4, 5]
    [[1], [], [2, 3], [4, 5]] [[10, 20, 3, 3, 4], [5]] (by decide) (by decide) _ _
    (by decide) (by decide)
    ⟨⟨0, 2⟩, by decide, by decide⟩ ⟨⟨0, 3⟩, by decide, by decide⟩

end Velcrux.Chunking
