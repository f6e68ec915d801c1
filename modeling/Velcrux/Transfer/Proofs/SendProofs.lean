import Velcrux.Chunking.Proofs.EngineProofs
import Velcrux.State.Proofs.BitmapProofs
import Velcrux.Transfer.Proofs.ReceiveProofs
import Velcrux.Transfer.Send

/-!
# What the client sends

Each pipeline of `client_upload_stream` sends the frames of a cut of the file: the missing
fixed-size chunks in increasing order, or the pieces of the content-defined chunker.
-/

namespace Velcrux.Transfer

open Chunking Protocol State ByteFile Cutting List ChunkBitmap

variable {H : HashFn} {Z : Compressor}
variable {bm : ChunkBitmap} {start total i cs n : ℕ} {file data z : Bytes} {sel : Selector}

/-! ## Missing chunks -/

def missingFrom (bm : ChunkBitmap) (start total : ℕ) : List ℕ :=
  (List.range' start (total - start)).filter (· ∉ bm.set)

theorem missingFrom_of_le (h : total ≤ start) : missingFrom bm start total = [] := by
  simp [missingFrom, Nat.sub_eq_zero_of_le h]

theorem missingFrom_succ (h : start < total) :
    missingFrom bm start total =
      if start ∈ bm.set then missingFrom bm (start + 1) total
      else start :: missingFrom bm (start + 1) total := by
  have hr : total - start = (total - (start + 1)) + 1 := by omega
  unfold missingFrom
  rw [hr, range'_succ]
  by_cases hs : start ∈ bm.set <;> simp [hs]

theorem missingFrom_skip {j : ℕ} (hj : start ≤ j)
    (h : ∀ k, start ≤ k → k < j → k < total → k ∈ bm.set) :
    missingFrom bm start total = missingFrom bm j total := by
  induction hj using Nat.decreasingInduction with
  | self => rfl
  | of_succ k hk ih =>
    by_cases hkt : k < total
    · rw [missingFrom_succ hkt, if_pos (h k (Nat.le_refl _) hk hkt)]
      exact ih fun i h1 h2 h3 => h i (by omega) h2 h3
    · rw [missingFrom_of_le (by omega), missingFrom_of_le (by omega)]

theorem mem_missingFrom : i ∈ missingFrom bm start total ↔ start ≤ i ∧ i < total ∧ i ∉ bm.set := by
  simp only [missingFrom, mem_filter, mem_range'_1, decide_eq_true_eq]
  constructor
  · rintro ⟨⟨h1, h2⟩, h3⟩
    exact ⟨h1, by omega, h3⟩
  · rintro ⟨h1, h2, h3⟩
    exact ⟨⟨h1, by omega⟩, h3⟩

theorem missingFrom_firstMissing (bm : ChunkBitmap) (hs : start < u64Max) (ht : total ≤ u64Max) :
    missingFrom bm start total =
      missingFrom bm ((bm.firstMissingFrom start).getD total) total := by
  cases h : bm.firstMissingFrom start with
  | none =>
    rw [Option.getD_none, missingFrom_of_le (Nat.le_refl total)]
    by_cases hle : start ≤ total
    · rw [missingFrom_skip hle, missingFrom_of_le (Nat.le_refl _)]
      exact fun k h1 h2 _ => firstMissingFrom_none hs h k h1 (by omega)
    · exact missingFrom_of_le (by omega)
  | some j =>
    obtain ⟨h1, -, h3⟩ := firstMissingFrom_spec h
    exact missingFrom_skip h1 fun k hk1 hk2 _ => h3 k hk1 hk2

theorem firstMissing_not_mem (h : (bm.firstMissingFrom start).getD total < total) :
    (bm.firstMissingFrom start).getD total ∉ bm.set := by
  cases hj : bm.firstMissingFrom start with
  | none => simp [hj] at h
  | some j => exact (firstMissingFrom_spec hj).2.1

theorem missingLoop_eq {fuel next : ℕ} (ht : total ≤ u64Max)
    (hf : total - next ≤ fuel) (hn : next < total → next ∉ bm.set) :
    missingLoop bm total fuel next = missingFrom bm next total := by
  induction fuel generalizing next with
  | zero => rw [missingFrom_of_le (by omega)]; rfl
  | succ fuel ih =>
    rw [missingLoop]
    split_ifs with h
    · rw [missingFrom_succ h, if_neg (hn h)]
      by_cases hend : next + 1 < u64Max
      · have hnext := missingFrom_firstMissing bm hend ht
        have hge : next + 1 ≤ (bm.firstMissingFrom (next + 1)).getD total ∨
            total ≤ (bm.firstMissingFrom (next + 1)).getD total := by
          cases hj : bm.firstMissingFrom (next + 1) with
          | none => exact .inr (Nat.le_refl _)
          | some j => exact .inl (firstMissingFrom_spec hj).1
        rw [hnext, ih (by omega) firstMissing_not_mem]
      · have hge : total ≤ (bm.firstMissingFrom (next + 1)).getD total := by
          cases hj : bm.firstMissingFrom (next + 1) with
          | none => exact Nat.le_refl _
          | some j =>
            have := (firstMissingFrom_spec hj).1
            simp only [Option.getD_some]
            omega
        rw [ih (by omega) firstMissing_not_mem, missingFrom_of_le hge, missingFrom_of_le (by omega)]
    · exact (missingFrom_of_le (by omega)).symm

/-- **The workers' list** is the missing indices in increasing order. -/
theorem missingChunks_eq (ht : total ≤ u64Max) :
    missingChunks bm total = missingFrom bm 0 total := by
  rw [missingChunks, missingLoop_eq ht (by omega) firstMissing_not_mem,
    ← missingFrom_firstMissing bm (by decide) ht]

theorem missingFrom_markComplete {len : ℕ} (h : i < start) :
    missingFrom (bm.markComplete i len) start total = missingFrom bm start total := by
  refine filter_congr fun k hk => ?_
  have hks : start ≤ k := (mem_range'_1.mp hk).1
  have : k ≠ i := by omega
  simp [this]

theorem missingFrom_next {next : ℕ} (bm : ChunkBitmap) (ht : total ≤ isizeMax) (h : next < total)
    (len : ℕ) :
    next + 1 ≤ ((bm.markComplete next len).firstMissingFrom (next + 1)).getD total ∧
      missingFrom bm (next + 1) total = missingFrom (bm.markComplete next len)
        (((bm.markComplete next len).firstMissingFrom (next + 1)).getD total) total := by
  have hle : isizeMax + 1 < u64Max := by decide
  set bm' := bm.markComplete next len with hbm
  constructor
  · cases hj : bm'.firstMissingFrom (next + 1) with
    | none => exact h
    | some j => exact (firstMissingFrom_spec hj).1
  · rw [← missingFrom_firstMissing bm' (by omega) (by omega),
      missingFrom_markComplete (Nat.lt_succ_self next)]

theorem lt_of_lt_divCeil {idx : ℕ} (hcs : 0 < cs) (h : idx < divCeil n cs) : idx * cs < n := by
  have := (Nat.le_div_iff_mul_le hcs).mp (Nat.succ_le_of_lt h)
  rw [Nat.succ_mul] at this
  omega

theorem divCeil_le (hcs : 0 < cs) : divCeil n cs ≤ n := by
  refine Nat.lt_succ_iff.mp ((Nat.div_lt_iff_lt_mul hcs).mpr ?_)
  calc n + cs - 1 < n + cs := by omega
    _ ≤ n * cs + cs := by
        have := Nat.le_mul_of_pos_right n hcs
        omega
    _ = (n + 1) * cs := by rw [Nat.succ_mul]

theorem div_lt_divCeil (hcs : 0 < cs) (h : i < n) : i / cs < divCeil n cs := by
  have hle : i / cs * cs ≤ i := Nat.div_mul_le_self i cs
  refine Nat.lt_of_succ_le ((Nat.le_div_iff_mul_le hcs).mpr ?_)
  rw [Nat.succ_mul]
  omega

theorem length_chunkAt {idx : ℕ} :
    (chunkAt file cs idx).2.length = min cs (file.length - idx * cs) := by
  have : Nat.min (file.length - idx * cs) cs = min (file.length - idx * cs) cs := rfl
  simp only [chunkAt, length_slice]
  omega

/-! ## The frames of a resumed M3 upload -/

def frameFrom (H : HashFn) (file : Bytes) (cs pos idx : ℕ) : ℕ × ℕ × Hash × Bytes :=
  let want := min (file.length - idx * cs) cs
  (idx * cs, want, H (slice file pos want), slice file pos want)

theorem fixedChannelLoop_eq {fuel next pos : ℕ} (hm : 0 < cs) (htotal : divCeil file.length cs = total)
    (hsize : file.length ≤ isizeMax) (hf : total - next ≤ fuel)
    (hn : next < total → next ∉ bm.set) (hpos : pos ≤ next * cs) :
    fixedChannelLoop H file cs fuel bm pos next = .ok ((missingFrom bm next total).zipIdx.map fun p =>
      frameFrom H file cs (pos + p.2 * cs) p.1) := by
  have ht : total ≤ isizeMax := htotal ▸ (divCeil_le hm).trans hsize
  induction fuel generalizing next bm pos with
  | zero =>
    rw [missingFrom_of_le (by omega)]
    rfl
  | succ fuel ih =>
    rw [fixedChannelLoop, htotal]
    by_cases h : next < total
    · have hlt := lt_of_lt_divCeil hm (htotal ▸ h)
      set want := min (file.length - next * cs) cs with hwant
      obtain ⟨hge, hnext⟩ := missingFrom_next bm ht h want
      have hfull : (slice file pos want).length = want := length_slice_of_le (by omega)
      have hnpos : pos + want ≤ (next + 1) * cs := by
        rw [Nat.succ_mul]
        omega
      dsimp only
      rw [if_pos h, if_neg hfull.not_lt, ih (by omega) firstMissing_not_mem
        (hnpos.trans (Nat.mul_le_mul_right _ hge)), ← hnext, missingFrom_succ h, if_neg (hn h),
        zipIdx_cons, map_cons]
      simp only [Except.map, Nat.zero_mul]
      congr 2
      -- only the last chunk is short, and nothing is read behind it
      rw [zipIdx_succ, map_map]
      refine map_congr_left fun p hp => ?_
      have hlater := (mem_missingFrom.1 (fst_mem_of_mem_zipIdx hp))
      have hp := lt_of_lt_divCeil hm (htotal ▸ hlater.2.1)
      have hwide : (next + 1) * cs ≤ p.1 * cs := Nat.mul_le_mul_right _ hlater.1
      rw [Nat.succ_mul] at hwide
      have hw : want = cs := by omega
      simp only [Function.comp, hw, Nat.succ_mul]
      rw [Nat.add_right_comm, Nat.add_assoc]
    · rw [if_neg h, missingFrom_of_le (by omega)]
      rfl

theorem chunkerToChannelFixed_eq (hsize : file.length ≤ isizeMax) (bm : ChunkBitmap) :
    chunkerToChannelFixed H file bm =
      .ok ((missingFrom bm 0 (divCeil file.length m3ChunkSize)).zipIdx.map fun p =>
        frameFrom H file m3ChunkSize (p.2 * m3ChunkSize) p.1) := by
  have ht := (divCeil_le (by decide : 0 < m3ChunkSize)).trans hsize
  have hmax : isizeMax ≤ u64Max := by decide
  rw [chunkerToChannelFixed, fixedChannelLoop_eq (by decide) rfl hsize (by omega) firstMissing_not_mem
    (Nat.zero_le _), ← missingFrom_firstMissing bm (by decide) (ht.trans hmax)]
  simp only [Nat.zero_add]

/-- The frames sent are those of the missing chunks in increasing order, each with the bytes that the
file has at its offset. -/
def SendsMissing (H : HashFn) (file : SourceFile) (bm : ChunkBitmap) : Prop :=
  ∃ frames, chunkerToChannelFixed H file.bytes bm = .ok frames ∧
    frames.map Prod.fst = ((List.range (divCeil file.size m3ChunkSize)).filter (· ∉ bm.set)).map
      (· * m3ChunkSize) ∧
    ∀ f ∈ frames, f.2.2.2 = slice file.bytes f.1 (min (file.size - f.1) m3ChunkSize) ∧
      f.2.2.1 = H (slice file.bytes f.1 (min (file.size - f.1) m3ChunkSize))

/-- **A resumed M3 upload** sends the missing chunks exactly when the `k`-th of them has the bytes
that the file has in its `k`-th slot: the file is read from its start. -/
theorem sendsMissing_iff (H : HashFn) (file : SourceFile) (bm : ChunkBitmap) :
    SendsMissing H file bm ↔
      ∀ p ∈ ((List.range (divCeil file.size m3ChunkSize)).filter (· ∉ bm.set)).zipIdx,
        slice file.bytes (p.1 * m3ChunkSize)
            (min (file.size - p.1 * m3ChunkSize) m3ChunkSize) =
          slice file.bytes (p.2 * m3ChunkSize)
            (min (file.size - p.1 * m3ChunkSize) m3ChunkSize) := by
  have hrange : missingFrom bm 0 (divCeil file.size m3ChunkSize) =
      (List.range (divCeil file.size m3ChunkSize)).filter (· ∉ bm.set) := by
    rw [missingFrom, range_eq_range', Nat.sub_zero]
  have hsent := chunkerToChannelFixed_eq (H := H) file.length_le bm
  rw [← hrange]
  constructor
  · rintro ⟨frames, hframes, -, hbytes⟩ p hp
    cases hsent.symm.trans hframes
    exact ((hbytes _ (mem_map_of_mem hp)).1).symm
  · intro hsame
    refine ⟨_, hsent, ?_, ?_⟩
    · conv_rhs => rw [← hrange, ← zipIdx_map_fst 0 (missingFrom _ _ _)]
      rw [map_map, map_map]
      rfl
    · rintro f hf
      obtain ⟨p, hp, rfl⟩ := mem_map.1 hf
      have hp := hsame p hp
      exact ⟨hp.symm, congrArg H hp.symm⟩

def gapFile : SourceFile where
  bytes := List.replicate m3ChunkSize 0 ++ [1]
  length_le := by
    rw [length_append, length_replicate]
    decide

/-- With its first chunk complete, the second one is sent as the first byte. -/
theorem not_sendsMissing_gap : ¬ SendsMissing (fun _ => .zero) gapFile ⟨{0}, 0⟩ := by
  rintro ⟨frames, hframes, -, hbytes⟩
  have hlen : gapFile.bytes.length = m3ChunkSize + 1 := by
    rw [gapFile, length_append, length_replicate, length_singleton]
  have htotal : divCeil (m3ChunkSize + 1) m3ChunkSize = 2 := by
    rw [divCeil, m3ChunkSize]
  have hwant : min (m3ChunkSize + 1 - m3ChunkSize) m3ChunkSize = 1 := by
    rw [m3ChunkSize]
    omega
  rw [chunkerToChannelFixed_eq gapFile.length_le, hlen, htotal,
    show missingFrom ⟨{0}, 0⟩ 0 2 = [1] by decide] at hframes
  obtain rfl := Except.ok.inj hframes
  have hone := (hbytes _ (mem_singleton.2 rfl)).1
  simp only [frameFrom, SourceFile.size, hlen, Nat.one_mul, hwant] at hone
  have hlast : slice gapFile.bytes m3ChunkSize 1 = [1] :=
    slice_append_right length_replicate 0 1
  rw [hlast] at hone
  exact absurd hone (by decide)

theorem pieceOf_chunkAt (file : Bytes) (cs idx : ℕ) : PieceOf file (chunkAt file cs idx) := by
  have hm : Nat.min (file.length - idx * cs) cs = min (file.length - idx * cs) cs := rfl
  unfold PieceOf
  rw [length_chunkAt]
  simp only [chunkAt]
  congr 1
  omega

def chooseForm (Z : Compressor) (compression : Bool) (sel : Selector) (data : Bytes) :
    Option Bytes × Selector :=
  if compression then sel.processPayload Z data else (none, sel)

def sentChunks (Z : Compressor) (compression : Bool) :
    Selector → List (ℕ × Bytes) → List SentChunk
  | _, [] => []
  | sel, c :: cs =>
    ⟨c.1, c.2, (chooseForm Z compression sel c.2).1⟩ ::
      sentChunks Z compression (chooseForm Z compression sel c.2).2 cs

theorem sendChunks_eq (compression : Bool) (sel : Selector) (cs : List (ℕ × Bytes)) :
    sendChunks H Z compression sel cs =
      (sentChunks Z compression sel cs).map (SentChunk.frame H) := by
  induction cs generalizing sel with
  | nil => rfl
  | cons c cs ih =>
    simp only [sentChunks, map_cons]
    rw [← ih]
    cases compression <;> rfl

theorem sentChunks_places (compression : Bool) (sel : Selector) (cs : List (ℕ × Bytes)) :
    (sentChunks Z compression sel cs).map (fun s => (s.offset, s.data)) = cs := by
  induction cs generalizing sel with
  | nil => rfl
  | cons c cs ih => simp [sentChunks, ih]

theorem processPayload_form (h : (sel.processPayload Z data).1 = some z) :
    (∃ level, Z.encodeAll data level = some z) ∧ z.length + defaultMinSavings ≤ data.length := by
  unfold Selector.processPayload at h
  split_ifs at h with h1 h2 h3
  dsimp only at h
  cases he : Z.encodeAll data ((Z.tierOf data).recommendedLevel.getD defaultZstdLevel) with
  | none => simp [he] at h
  | some w =>
    rw [he] at h
    dsimp only at h
    split_ifs at h with h4
    obtain rfl : w = z := by simpa using h
    exact ⟨⟨_, he⟩, h4⟩

theorem chooseForm_form {compression : Bool} (h : (chooseForm Z compression sel data).1 = some z) :
    (∃ level, Z.encodeAll data level = some z) ∧ z.length + defaultMinSavings ≤ data.length := by
  unfold chooseForm at h
  split_ifs at h with hc
  exact processPayload_form h

theorem covers_chunkAt (hcs : 0 < cs) (hi : i < file.length) :
    Covers (chunkAt file cs (i / cs)) i := by
  refine ⟨Nat.div_mul_le_self i cs, ?_⟩
  rw [length_chunkAt]
  change i < i / cs * cs + _
  have := Nat.lt_div_mul_add (a := i) hcs
  omega

theorem sentChunks_wellFormed {compression : Bool} {cs : List (ℕ × Bytes)}
    (h1 : ∀ c ∈ cs, c.1 < 2 ^ 64) (h2 : ∀ c ∈ cs, c.2 ≠ []) :
    ∀ s ∈ sentChunks Z compression sel cs, s.WellFormed Z := by
  induction cs generalizing sel with
  | nil => simp [sentChunks]
  | cons c cs ih =>
    intro s hs
    rcases mem_cons.mp hs with rfl | hs
    · exact ⟨h1 c mem_cons_self, h2 c mem_cons_self, fun z hz => chooseForm_form hz⟩
    · exact ih (fun d hd => h1 d (mem_cons_of_mem _ hd))
        (fun d hd => h2 d (mem_cons_of_mem _ hd)) s hs

open Chunker

theorem chunkerLoop_eq_chunkReaderLoop {c : Chunker} {p : Bytes} (hp : p.length = c.inChunk)
    (hr : c.Ready) (reads : List Bytes) :
    chunkerLoop c p c.nextOffset reads = chunkReaderLoop c p c.nextOffset reads := by
  induction reads generalizing c p with
  | nil =>
    rw [chunkReaderLoop_eq hp hr, chunkerLoop, flatten_nil, scan]
    by_cases hnil : p = [] <;> simp [hnil, layOut]
  | cons buf reads ih =>
    obtain ⟨hin, hoffset, hready⟩ := scan_tracks hp hr buf
    rw [chunkerLoop, chunkReaderLoop, push_eq_feedAll hr, feedAll_eq_scan hp]
    cases hlater : chunkReaderLoop (scan cutStep c p buf).1 (scan cutStep c p buf).2.2
        (scan cutStep c p buf).1.nextOffset reads <;>
      simp only [← scan_flatten cutStep c p buf, drainPending_layOut, ← hoffset, ih hin hready, hlater]

theorem chunkerLoop_createChunker (mode : ChunkMode) (params : ChunkParams) (reads : List Bytes) :
    chunkerLoop (createChunker mode params) [] 0 reads =
      .ok (layOut 0 (pieces cutStep (createChunker mode params) reads.flatten)) := by
  have hloop := chunkerLoop_eq_chunkReaderLoop (p := []) (inChunk_createChunker mode params).symm
    (ready_createChunker _ _) reads
  rwa [nextOffset_createChunker, chunkReaderLoop_createChunker] at hloop

def cdcCut (cfg : PipelineConfig) (input : Bytes) : List (ℕ × Bytes) :=
  layOut 0 (pieces cutStep (createChunker cfg.chunkMode cfg.chunkParams) input)

theorem cut_cdcCut (cfg : PipelineConfig) (input : Bytes) : Cut input (cdcCut cfg input) := by
  have h := cut_layOut fun p (hp : p ∈ pieces cutStep
    (createChunker cfg.chunkMode cfg.chunkParams) input) => ne_nil_of_mem_pieces cutStep hp
  rwa [pieces_flatten] at h

end Velcrux.Transfer
