import Velcrux.Foundations.Cutting
import Velcrux.Chunking.Chunker

/-!
# What the chunkers do, byte by byte

Each chunker is the run of a per-byte cutter (`Chunker.cutStep`): `push` with its skips finds the
boundaries that feeding one byte at a time finds (`push_eq_feedAll`), which are those of
`Cutting.scan` (`feedAll_eq_scan`).
-/

namespace Velcrux.Chunking

open Cutting List Chunker

variable {c : Chunker}

namespace Chunker

def cutStep (c : Chunker) (b : UInt8) : Chunker × Bool :=
  match c with
  | .fixed c =>
    if c.params.target ≤ c.inChunk + 1 then
      (.fixed { c with inChunk := 0, nextOffset := c.nextOffset + (c.inChunk + 1) }, true)
    else (.fixed { c with inChunk := c.inChunk + 1 }, false)
  | .rolling c => (.rolling (c.feed b).1, (c.feed b).2.isSome)
  | .fastCdc c =>
    if c.inChunk < c.params.min then (.fastCdc { c with inChunk := c.inChunk + 1 }, false)
    else
      let fingerprint := (c.fingerprint * 2 + gear64 b) % 2 ^ 64
      let mask := if c.inChunk + 1 < c.params.target then c.maskS else c.maskL
      if fingerprint &&& mask = 0 ∨ c.params.max ≤ c.inChunk + 1 then
        (.fastCdc { c with fingerprint := 0, inChunk := 0,
                           nextOffset := c.nextOffset + (c.inChunk + 1) }, true)
      else (.fastCdc { c with fingerprint := fingerprint, inChunk := c.inChunk + 1 }, false)

def feedAll (c : Chunker) : Bytes → Chunker × List ChunkBoundary
  | [] => (c, [])
  | b :: bs =>
    let r := feedAll (c.cutStep b).1 bs
    (r.1, (if (c.cutStep b).2 then [⟨c.nextOffset, c.inChunk + 1⟩] else []) ++ r.2)

def Ready : Chunker → Prop
  | .fixed c => c.finished = false ∧ c.inChunk < c.params.target
  | .rolling c => c.finished = false
  | .fastCdc c => c.finished = false

theorem ready_createChunker (mode : ChunkMode) (params : ChunkParams) :
    (createChunker mode params).Ready := by
  obtain ⟨h1, h2, h3⟩ := params.accepted
  cases mode with
  | cdc => rfl
  | fixed => exact ⟨rfl, by simp only [FixedChunker.new]; omega⟩
  | fastCdc => rfl

theorem cutStep_position (c : Chunker) (b : UInt8) :
    (c.cutStep b).1.inChunk = (if (c.cutStep b).2 then 0 else c.inChunk + 1) ∧
      (c.cutStep b).1.nextOffset =
        if (c.cutStep b).2 then c.nextOffset + (c.inChunk + 1) else c.nextOffset := by
  cases c with
  | fixed c =>
    simp only [cutStep]
    split <;> exact ⟨rfl, rfl⟩
  | rolling c =>
    simp only [cutStep, RollingChunker.feed]
    split <;> exact ⟨rfl, rfl⟩
  | fastCdc c =>
    simp only [cutStep]
    split
    · exact ⟨rfl, rfl⟩
    · split <;> split <;> exact ⟨rfl, rfl⟩

theorem cutStep_cut {b : UInt8} (h : (c.cutStep b).2 = true) :
    (c.cutStep b).1.inChunk = 0 ∧ (c.cutStep b).1.nextOffset = c.nextOffset + (c.inChunk + 1) := by
  simpa only [h, if_true] using c.cutStep_position b

theorem cutStep_no_cut {b : UInt8} (h : (c.cutStep b).2 = false) :
    (c.cutStep b).1.inChunk = c.inChunk + 1 ∧ (c.cutStep b).1.nextOffset = c.nextOffset := by
  simpa only [h, Bool.false_eq_true, if_false] using c.cutStep_position b

theorem cutStep_ready (b : UInt8) (h : c.Ready) : (c.cutStep b).1.Ready := by
  cases c with
  | fixed c =>
    obtain ⟨h1, h2⟩ := h
    simp only [cutStep]
    split_ifs with hc
    · exact ⟨h1, by dsimp only; omega⟩
    · exact ⟨h1, by dsimp only; omega⟩
  | rolling c =>
    have h' : c.finished = false := h
    simp only [cutStep, RollingChunker.feed]
    split_ifs <;> exact h'
  | fastCdc c =>
    have h' : c.finished = false := h
    simp only [cutStep]
    split_ifs <;> exact h'

/-! ## The length of the chunk in progress -/

/-- The length at which a chunk is cut whatever its bytes. FastCDC hashes one byte behind the minimum
before it looks at the maximum. -/
def limit : Chunker → ℕ
  | .fixed c => c.params.target
  | .rolling c => c.params.max
  | .fastCdc c => max (c.params.min + 1) c.params.max

def least : Chunker → ℕ
  | .fixed c => c.params.target
  | .rolling c => c.params.min
  | .fastCdc c => c.params.min

theorem limit_cutStep (c : Chunker) (b : UInt8) :
    (c.cutStep b).1.limit = c.limit ∧ (c.cutStep b).1.least = c.least := by
  cases c with
  | fixed c =>
    simp only [cutStep]
    split_ifs <;> exact ⟨rfl, rfl⟩
  | rolling c =>
    simp only [cutStep, RollingChunker.feed]
    split_ifs <;> exact ⟨rfl, rfl⟩
  | fastCdc c =>
    simp only [cutStep]
    split_ifs <;> exact ⟨rfl, rfl⟩

theorem cutStep_bounds (b : UInt8) (h : c.inChunk < c.limit) :
    ((c.cutStep b).2 = true → c.least ≤ c.inChunk + 1) ∧ (c.cutStep b).1.inChunk < c.limit := by
  cases c with
  | fixed c =>
    simp only [limit] at h
    simp only [cutStep, least, limit]
    split_ifs <;> simp [inChunk] <;> omega
  | rolling c =>
    have hparams := c.params.accepted
    simp only [cutStep, RollingChunker.feed, least, limit]
    split_ifs <;> simp [inChunk] <;> omega
  | fastCdc c =>
    simp only [cutStep, least, limit]
    split_ifs <;> simp [inChunk] <;> omega

theorem inChunk_lt_limit_createChunker (mode : ChunkMode) (params : ChunkParams) :
    (createChunker mode params).inChunk < (createChunker mode params).limit := by
  have hparams := params.accepted
  cases mode <;> simp [createChunker, inChunk, limit, FixedChunker.new, RollingChunker.new,
    FastCdcChunker.new] <;> omega

theorem length_le_limit {mode : ChunkMode} {params : ChunkParams} {input p : Bytes}
    (hp : p ∈ pieces cutStep (createChunker mode params) input) :
    p.length ≤ (createChunker mode params).limit := by
  refine length_le_of_mem_pieces cutStep
    (I := fun c k => c.inChunk = k ∧ k < c.limit ∧ c.limit = (createChunker mode params).limit)
    ?_ ?_ ?_ ⟨?_, ?_, rfl⟩ hp
  · rintro c k ⟨-, hlt, hl⟩
    rwa [← hl]
  · rintro c k b ⟨rfl, hlt, hl⟩ hcut
    rw [(c.limit_cutStep b).1]
    exact ⟨(cutStep_cut hcut).1, by omega, hl⟩
  · rintro c k b ⟨rfl, hlt, hl⟩ hgrow
    have hbound := (cutStep_bounds b hlt).2
    rw [(cutStep_no_cut hgrow).1] at hbound
    rw [(c.limit_cutStep b).1]
    exact ⟨(cutStep_no_cut hgrow).1, hbound, hl⟩
  · cases mode <;> rfl
  · exact Nat.zero_lt_of_lt (inChunk_lt_limit_createChunker mode params)

theorem feedAll_bounds (h : c.inChunk < c.limit) (xs : Bytes) :
    (∀ b ∈ (feedAll c xs).2, c.least ≤ b.length ∧ b.length ≤ c.limit) ∧
      (feedAll c xs).1.inChunk < c.limit := by
  induction xs generalizing c with
  | nil => exact ⟨by simp [feedAll], h⟩
  | cons x xs ih =>
    obtain ⟨hlimit, hleast⟩ := c.limit_cutStep x
    obtain ⟨hcut, hnext⟩ := cutStep_bounds x h
    obtain ⟨hbs, hend⟩ := ih (by rwa [hlimit])
    rw [hlimit] at hbs hend
    rw [hleast] at hbs
    refine ⟨fun b hb => ?_, hend⟩
    rcases mem_append.1 hb with hb | hb
    · split_ifs at hb with hc
      · rw [mem_singleton.1 hb]
        exact ⟨hcut hc, h⟩
      · simp at hb
    · exact hbs b hb

def toBoundary (p : ℕ × Bytes) : ChunkBoundary := ⟨p.1, p.2.length⟩

/-- **Byte by byte, the boundaries are those of the scanned pieces.** -/
theorem feedAll_eq_scan {p : Bytes} (hp : p.length = c.inChunk) (xs : Bytes) :
    feedAll c xs = ((scan cutStep c p xs).1,
      (layOut c.nextOffset (scan cutStep c p xs).2.1).map toBoundary) := by
  induction xs generalizing c p with
  | nil => rfl
  | cons b bs ih =>
    cases hc : (c.cutStep b).2 with
    | true =>
      obtain ⟨h1, h2⟩ := cutStep_cut hc
      rw [feedAll, ih (p := []) (by rw [h1]; rfl), h2]
      simp [scan, hc, layOut, toBoundary, hp]
    | false =>
      obtain ⟨h1, h2⟩ := cutStep_no_cut hc
      rw [feedAll, ih (p := p ++ [b]) (by simp [h1, hp]), h2]
      simp [scan, hc]

theorem scan_tracks {p : Bytes} (hp : p.length = c.inChunk) (hr : c.Ready) (xs : Bytes) :
    (scan cutStep c p xs).2.2.length = (scan cutStep c p xs).1.inChunk ∧
      (scan cutStep c p xs).1.nextOffset =
        c.nextOffset + (scan cutStep c p xs).2.1.flatten.length ∧
      (scan cutStep c p xs).1.Ready := by
  induction xs generalizing c p with
  | nil => exact ⟨hp, rfl, hr⟩
  | cons b bs ih =>
    have hr' := cutStep_ready b hr
    cases hc : (c.cutStep b).2 with
    | true =>
      obtain ⟨h1, h2⟩ := cutStep_cut hc
      obtain ⟨i1, i2, i3⟩ := ih (p := []) (by rw [h1]; rfl) hr'
      simp only [scan, hc, if_true]
      refine ⟨i1, ?_, i3⟩
      simp only [flatten_cons, length_append, length_singleton]
      omega
    | false =>
      obtain ⟨h1, h2⟩ := cutStep_no_cut hc
      obtain ⟨i1, i2, i3⟩ := ih (p := p ++ [b]) (by simp [h1, hp]) hr'
      simp only [scan, hc, Bool.false_eq_true, if_false]
      exact ⟨i1, by rw [i2, h2], i3⟩

theorem feedAll_append (c : Chunker) (xs ys : Bytes) :
    feedAll c (xs ++ ys) =
      ((feedAll (feedAll c xs).1 ys).1, (feedAll c xs).2 ++ (feedAll (feedAll c xs).1 ys).2) := by
  induction xs generalizing c with
  | nil => rfl
  | cons b bs ih => simp [feedAll, ih]

end Chunker

open Chunker

/-! ## The loops of `push` -/

theorem rolling_pushLoop (c : RollingChunker) (buf : Bytes) :
    (rolling (c.pushLoop buf).1, (c.pushLoop buf).2) = feedAll (.rolling c) buf := by
  induction buf generalizing c with
  | nil => rfl
  | cons b bs ih =>
    rw [feedAll]
    have hb : (if (cutStep (.rolling c) b).2 then
        [(⟨(rolling c).nextOffset, (rolling c).inChunk + 1⟩ : ChunkBoundary)]
        else []) = (c.feed b).2.toList := by
      simp only [cutStep, RollingChunker.feed]
      split_ifs <;> simp_all [nextOffset, inChunk]
    rw [hb]
    have hih := ih (c.feed b).1
    change _ = ((feedAll (.rolling (c.feed b).1) bs).1,
      _ ++ (feedAll (.rolling (c.feed b).1) bs).2)
    rw [← hih]
    rfl

theorem feedAll_fixed_short (c : FixedChunker) (bs : Bytes)
    (h : c.inChunk + bs.length < c.params.target) :
    feedAll (.fixed c) bs = (.fixed { c with inChunk := c.inChunk + bs.length }, []) := by
  induction bs generalizing c with
  | nil => rfl
  | cons b bs ih =>
    rw [length_cons] at h
    have hstep : cutStep (.fixed c) b = (.fixed { c with inChunk := c.inChunk + 1 }, false) := by
      simp only [cutStep]
      rw [if_neg (by omega)]
    rw [feedAll, hstep, ih _ (by dsimp only; omega)]
    simp only [length_cons]
    congr 3
    omega

theorem feedAll_fixed_full (c : FixedChunker) (bs : Bytes) (hc : c.inChunk < c.params.target)
    (h : c.inChunk + bs.length = c.params.target) :
    feedAll (.fixed c) bs = (.fixed { c with
        inChunk := 0, nextOffset := c.nextOffset + c.params.target },
      [⟨c.nextOffset, c.params.target⟩]) := by
  obtain ⟨bs, b, rfl⟩ : ∃ init last, bs = init ++ [last] := by
    have hne : bs ≠ [] := by
      rintro rfl
      simp at h
      omega
    exact ⟨bs.dropLast, bs.getLast hne, (dropLast_append_getLast hne).symm⟩
  simp only [length_append, length_singleton] at h
  rw [feedAll_append, feedAll_fixed_short c bs (by omega)]
  have hlen : c.inChunk + bs.length + 1 = c.params.target := by omega
  simp [feedAll, cutStep, nextOffset, inChunk, hlen]

theorem fixed_pushLoop (fuel : ℕ) (c : FixedChunker) (buf : Bytes) (hf : buf.length < fuel)
    (hc : c.inChunk < c.params.target) :
    ((fixed (FixedChunker.pushLoop fuel c buf.length).1),
      (FixedChunker.pushLoop fuel c buf.length).2) = feedAll (.fixed c) buf := by
  induction fuel generalizing c buf with
  | zero => omega
  | succ fuel ih =>
    unfold FixedChunker.pushLoop
    by_cases h0 : buf.length = 0
    · obtain rfl := length_eq_zero_iff.mp h0
      rfl
    rw [if_neg h0]
    by_cases hs : buf.length < c.params.target - c.inChunk
    · rw [if_pos hs, feedAll_fixed_short c buf (by omega)]
    · rw [if_neg hs]
      set needed := c.params.target - c.inChunk with hn
      have hsplit := feedAll_append (.fixed c) (buf.take needed) (buf.drop needed)
      rw [take_append_drop, feedAll_fixed_full c (buf.take needed) hc (by simp; omega)] at hsplit
      have hlen : c.inChunk + needed = c.params.target := by omega
      have hd : buf.length - needed = (buf.drop needed).length := by simp
      rw [hsplit, hlen, hd, ← ih _ _ (by omega) (by dsimp only; omega)]
      rfl

theorem feedAll_fastCdc_skip (c : FastCdcChunker) (bs : Bytes)
    (h : c.inChunk + bs.length ≤ c.params.min) :
    feedAll (.fastCdc c) bs = (.fastCdc { c with inChunk := c.inChunk + bs.length }, []) := by
  induction bs generalizing c with
  | nil => rfl
  | cons b bs ih =>
    rw [length_cons] at h
    have hstep : cutStep (.fastCdc c) b = (.fastCdc { c with inChunk := c.inChunk + 1 }, false) := by
      simp only [cutStep]
      rw [if_pos (by omega)]
    rw [feedAll, hstep, ih _ (by dsimp only; omega)]
    simp only [length_cons]
    congr 3
    omega

theorem feedAll_skip (c : FastCdcChunker) (buf : Bytes) :
    feedAll (.fastCdc c) buf = feedAll (.fastCdc (c.skip buf).1) (c.skip buf).2 := by
  unfold FastCdcChunker.skip
  split_ifs with h
  · set k := Nat.min (c.params.min - c.inChunk) buf.length with hk
    have hk' : k = min (c.params.min - c.inChunk) buf.length := hk
    have hlen : (buf.take k).length = k := by simp; omega
    have hsplit := feedAll_append (.fastCdc c) (buf.take k) (buf.drop k)
    rw [take_append_drop, feedAll_fastCdc_skip c (buf.take k) (by omega), hlen] at hsplit
    rw [hsplit]
    simp
  · rfl

theorem feedAll_scanCut (c : FastCdcChunker) (buf : Bytes) (h : c.params.min ≤ c.inChunk) :
    feedAll (.fastCdc c) buf =
      ((feedAll (.fastCdc (c.scanCut buf).1) (c.scanCut buf).2.2).1,
        (c.scanCut buf).2.1.toList ++
          (feedAll (.fastCdc (c.scanCut buf).1) (c.scanCut buf).2.2).2) := by
  induction buf generalizing c with
  | nil => rfl
  | cons b bs ih =>
    rw [feedAll]
    simp only [cutStep, if_neg (show ¬ c.inChunk < c.params.min by omega), nextOffset, inChunk]
    unfold FastCdcChunker.scanCut
    by_cases hcut : ((c.fingerprint * 2 + gear64 b) % 2 ^ 64 &&&
        if c.inChunk + 1 < c.params.target then c.maskS else c.maskL) = 0 ∨
          c.params.max ≤ c.inChunk + 1
    · rw [if_pos hcut, if_pos hcut]
      simp
    · rw [if_neg hcut, if_neg hcut]
      exact ih { c with
        fingerprint := (c.fingerprint * 2 + gear64 b) % 2 ^ 64, inChunk := c.inChunk + 1 }
        (by dsimp only; omega)

theorem length_scanCut_le (c : FastCdcChunker) (buf : Bytes) :
    (c.scanCut buf).2.2.length ≤ buf.length - 1 := by
  fun_induction FastCdcChunker.scanCut c buf with
  | case1 => simp
  | case2 => simp
  | case3 c b bs _ _ _ _ ih =>
    simp only [length_cons]
    omega

theorem length_skip_le (c : FastCdcChunker) (buf : Bytes) : (c.skip buf).2.length ≤ buf.length := by
  unfold FastCdcChunker.skip
  split_ifs <;> simp

theorem skip_exhausts (c : FastCdcChunker) (buf : Bytes)
    (h : (c.skip buf).1.inChunk < (c.skip buf).1.params.min) : (c.skip buf).2 = [] := by
  unfold FastCdcChunker.skip at h ⊢
  split_ifs at h ⊢ with hc
  · have hm : Nat.min (c.params.min - c.inChunk) buf.length =
        min (c.params.min - c.inChunk) buf.length := rfl
    dsimp only at h ⊢
    rw [drop_eq_nil_iff]
    omega
  · exact absurd h hc

theorem fastCdc_pushLoop (fuel : ℕ) (c : FastCdcChunker) (buf : Bytes) (hf : buf.length < fuel) :
    (fastCdc (FastCdcChunker.pushLoop fuel c buf).1,
      (FastCdcChunker.pushLoop fuel c buf).2) = feedAll (.fastCdc c) buf := by
  induction fuel generalizing c buf with
  | zero => omega
  | succ fuel ih =>
    unfold FastCdcChunker.pushLoop
    by_cases h0 : buf = []
    · subst h0
      rfl
    rw [if_neg h0]
    rw [feedAll_skip c buf]
    by_cases hs : (c.skip buf).1.inChunk < (c.skip buf).1.params.min
    · rw [if_pos hs, skip_exhausts c buf hs]
      rfl
    · rw [if_neg hs, feedAll_scanCut _ _ (by omega)]
      have hlen : ((c.skip buf).1.scanCut (c.skip buf).2).2.2.length < fuel := by
        have h1 := length_scanCut_le (c.skip buf).1 (c.skip buf).2
        have h2 := length_skip_le c buf
        have h3 := length_pos_iff.mpr h0
        omega
      rw [← ih _ _ hlen]

/-- **A chunker fed a buffer finds what it finds byte by byte.** -/
theorem push_eq_feedAll (h : c.Ready) (buf : Bytes) : c.push buf = .ok (feedAll c buf) := by
  cases c with
  | fixed c =>
    obtain ⟨h1, h2⟩ := h
    have ht : c.params.target ≠ 0 := by omega
    simp only [push, FixedChunker.push, h1, if_neg ht, Bool.false_eq_true, if_false,
      Except.map]
    rw [fixed_pushLoop _ _ _ (by omega) h2]
  | rolling c =>
    have h1 : c.finished = false := h
    simp only [push, RollingChunker.push, h1, Bool.false_eq_true, if_false, Except.map]
    rw [rolling_pushLoop]
  | fastCdc c =>
    have h1 : c.finished = false := h
    simp only [push, FastCdcChunker.push, h1, Bool.false_eq_true, if_false, Except.map]
    rw [fastCdc_pushLoop _ _ _ (by omega)]

end Velcrux.Chunking
