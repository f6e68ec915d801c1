import Velcrux.Chunking.Pipeline
import Velcrux.Chunking.Proofs.BoundariesProofs

/-!
# Which inputs the pipeline accepts

The loop around `finish` calls it again after it has returned the chunk in progress, and that call
fails. So the pipeline accepts exactly the inputs that end at a cut.
-/

namespace Velcrux.Chunking

open Cutting Chunker List

def toRaw (piece : ℕ × Bytes) : ChunkBoundary × Bytes := (toBoundary piece, piece.2)

variable {data p : Bytes} {c : Chunker}

theorem mapM_copySlice_layOut {off : ℕ} {ps : List Bytes} {rest : Bytes}
    (hoff : off ≤ data.length) (hdata : data.drop off = ps.flatten ++ rest) :
    ((layOut off ps).map toBoundary).mapM (copySlice data) = .ok ((layOut off ps).map toRaw) := by
  induction ps generalizing off with
  | nil => rfl
  | cons q ps ih =>
    rw [flatten_cons, append_assoc] at hdata
    have hlen := congrArg List.length hdata
    simp only [length_drop, length_append] at hlen
    have hnext : data.drop (off + q.length) = ps.flatten ++ rest := by
      rw [← drop_drop, hdata, drop_left]
    have hcopy : copySlice data (toBoundary (off, q)) = .ok (toRaw (off, q)) := by
      have hend : (toBoundary (off, q)).endOff = off + q.length := rfl
      have hbytes : (toBoundary (off, q)).bytesIn data = q := by
        rw [ChunkBoundary.bytesIn, toBoundary, hdata, take_left]
      rw [copySlice, hbytes, if_neg (by omega)]
      rfl
    rw [layOut, map_cons, mapM_cons, hcopy, ih (by omega) hnext]
    rfl

variable (config : ChunkPipelineConfig)

theorem pushSlices_eq (hp : p.length = c.inChunk) (hr : c.Ready)
    {cursor : ℕ} (hcursor : cursor = c.nextOffset + p.length) (hle : cursor ≤ data.length)
    (hdata : data.drop c.nextOffset = p ++ data.drop cursor) :
    pushSlices config data c cursor = .ok ((scan cutStep c p (data.drop cursor)).1,
      (layOut c.nextOffset (scan cutStep c p (data.drop cursor)).2.1).map toRaw) := by
  induction hn : data.length - cursor using Nat.strongRecOn generalizing c p cursor with
  | ind n ih =>
    rw [pushSlices]
    by_cases hlt : cursor < data.length
    · have hpos := config.readBufferSize_pos
      set nextEnd := Nat.min (cursor + config.readBufferSize) data.length with hnext
      have hmin : nextEnd = min (cursor + config.readBufferSize) data.length := rfl
      set buf := (data.take nextEnd).drop cursor with hbuf
      have hsplit : data.drop cursor = buf ++ data.drop nextEnd := by
        conv_lhs => rw [← take_append_drop nextEnd data]
        rw [drop_append_of_le_length (by rw [length_take]; omega)]
      have hlen : buf.length = nextEnd - cursor := by
        rw [length_drop, length_take]
        omega
      obtain ⟨t1, t2, t3⟩ := scan_tracks hp hr buf
      have hflat := scan_flatten cutStep c p buf
      have hsum := congrArg List.length hflat
      simp only [length_append] at hsum
      have hoff : c.nextOffset ≤ data.length := by omega
      have hfound : data.drop c.nextOffset = (scan cutStep c p buf).2.1.flatten ++
          ((scan cutStep c p buf).2.2 ++ data.drop nextEnd) := by
        rw [hdata, hsplit, ← append_assoc, ← hflat, append_assoc]
      have hend : nextEnd = (scan cutStep c p buf).1.nextOffset +
          (scan cutStep c p buf).2.2.length := by omega
      have hrest := ih (data.length - nextEnd) (by omega) t1 t3 hend (by omega)
        (by rw [t2, ← drop_drop, hfound, drop_left]) rfl
      rw [if_pos hlt]
      dsimp only
      rw [push_eq_feedAll hr, feedAll_eq_scan hp]
      dsimp only
      rw [mapM_copySlice_layOut hoff hfound]
      rw [hrest, hsplit, scan_append]
      simp only [layOut_append, map_append, t2]
      rfl
    · rw [if_neg hlt, drop_eq_nil_of_le (by omega)]
      rfl

theorem finishSlices_of_cut (hr : c.Ready) (h : c.inChunk = 0) : finishSlices data c = .ok [] := by
  have hfinish := finish_of_ready hr
  rw [finishSlices]
  split <;> simp_all

theorem finishSlices_of_rest (data : Bytes) (hr : c.Ready) (h : c.inChunk ≠ 0) :
    ∃ e, finishSlices data c = .error e := by
  have hfinish := finish_of_ready hr
  obtain ⟨e, he⟩ := finish_of_isFinished (isFinished_closed c)
  have hagain : finishSlices data c.closed = .error (.error e) := by
    rw [finishSlices]
    split <;> simp_all
  rw [finishSlices]
  split
  · exact ⟨_, rfl⟩
  · simp_all
  · rw [hagain]
    cases copySlice data _ with
    | error e => exact ⟨e, rfl⟩
    | ok r => exact ⟨_, rfl⟩

def numbered (H : HashFn) (pieces : List (ℕ × Bytes)) : List PipelinedChunk :=
  pieces.zipIdx.map fun (piece, i) => ⟨i, piece.1, piece.2.length, H piece.2, piece.2⟩

theorem map_numbered {β : Type} (H : HashFn) (ps : List (ℕ × Bytes)) {g : PipelinedChunk → β}
    {f : ℕ × Bytes → β}
    (h : ∀ piece i, g ⟨i, piece.1, piece.2.length, H piece.2, piece.2⟩ = f piece) :
    (numbered H ps).map g = ps.map f := by
  have hfst := congrArg (List.map f) (zipIdx_map_fst 0 ps)
  rw [map_map] at hfst
  rw [numbered, map_map, ← hfst]
  exact map_congr_left fun x _ => h x.1 x.2

/-- **The pipeline returns the pieces of its input when no chunk is in progress at the end.** -/
theorem processSlice_eq (H : HashFn) (config : ChunkPipelineConfig) (data : Bytes) :
    let r := scan cutStep (createChunker config.mode config.params) [] data
    if r.2.2 = [] then processSlice H config data = .ok (numbered H (layOut 0 r.2.1))
    else ∃ e, processSlice H config data = .error e := by
  have hc := (inChunk_createChunker config.mode config.params).symm
  have hr := ready_createChunker config.mode config.params
  have hoff := nextOffset_createChunker config.mode config.params
  have hpush := pushSlices_eq config (p := []) hc hr (by simp [hoff]) (Nat.zero_le data.length)
    (by simp [hoff])
  obtain ⟨t1, -, t3⟩ := scan_tracks (p := []) hc hr data
  rw [drop_zero, hoff] at hpush
  simp only [processSlice, hpush]
  dsimp only [bind, Except.bind]
  split_ifs with h
  · rw [finishSlices_of_cut t3 (by rw [← t1, h]; rfl)]
    simp [numbered, toRaw, toBoundary, zipIdx_map, pure, Except.pure]
  · obtain ⟨e, he⟩ := finishSlices_of_rest data t3 (by rw [← t1]; simpa using h)
    exact ⟨e, by rw [he]⟩

def EndsAtCut (data : Bytes) : Prop :=
  data = [] ∨ ∃ init b, data = init ++ [b] ∧
    (((createChunker config.mode config.params).feedAll init).1.cutStep b).2 = true

theorem endsAtCut_iff (data : Bytes) : EndsAtCut config data ↔
      (scan cutStep (createChunker config.mode config.params) [] data).2.2 = [] := by
  have hc : ([] : Bytes).length = _ := (inChunk_createChunker config.mode config.params).symm
  rcases eq_nil_or_concat data with rfl | ⟨init, b, hconcat⟩
  · exact iff_of_true (.inl rfl) rfl
  · rw [concat_eq_append] at hconcat
    subst hconcat
    have hcut : EndsAtCut config (init ++ [b]) ↔
        (((createChunker config.mode config.params).feedAll init).1.cutStep b).2 = true := by
      constructor
      · rintro (h | ⟨init', b', h, hcut⟩)
        · simp at h
        · obtain ⟨rfl, hb⟩ := append_inj' h rfl
          cases hb
          exact hcut
      · exact fun hcut => .inr ⟨init, b, rfl, hcut⟩
    rw [hcut, feedAll_eq_scan hc, scan_append]
    simp only [scan]
    split_ifs with h <;> simp [h]

theorem chunkReader_ok {mode : ChunkMode} {params : ChunkParams} {bufferSize : ℕ}
    {reads : List Bytes} {items : List (ℕ × Bytes)}
    (h : chunkReader mode params bufferSize reads = .ok items) :
    items = layOut 0 (pieces cutStep (createChunker mode params) reads.flatten) := by
  unfold chunkReader at h
  split_ifs at h
  rw [chunkReaderLoop_createChunker] at h
  exact (Except.ok.inj h).symm

/-- **The pipeline accepts exactly the inputs that end at a cut.** -/
theorem processes_iff_endsAtCut (H : HashFn) (config : ChunkPipelineConfig) (data : Bytes) :
    Processes H config data ↔ EndsAtCut config data := by
  have hprocess := processSlice_eq H config data
  dsimp only at hprocess
  rw [endsAtCut_iff]
  split_ifs at hprocess with h
  · refine iff_of_true ⟨_, hprocess, ?_, ?_, ?_⟩ h
    · simp [numbered, Function.comp_def, range_eq_range']
    · have hflat := scan_flatten cutStep (createChunker config.mode config.params) [] data
      simp only [h, append_nil, nil_append] at hflat
      rw [map_numbered H _ fun _ _ => rfl, map_snd_layOut, hflat]
    · intro bufferSize reads items hreads hread
      have hitems := chunkReader_ok hread
      simp only [hreads, pieces, h] at hitems
      rw [hitems]
      exact map_numbered H _ fun _ _ => rfl
  · obtain ⟨e, he⟩ := hprocess
    refine iff_of_false ?_ h
    rintro ⟨chunks, hok, -⟩
    rw [he] at hok
    cases hok

def twoByteConfig : ChunkPipelineConfig := ⟨.fixed, tinyParams, 1, by decide⟩

/-- One byte with chunks of two: the pipeline calls `finish` twice. -/
theorem not_processes_oneByte : ¬ Processes (fun _ => Hash.zero) twoByteConfig [0x41] := by
  have hprocess := processSlice_eq (fun _ => Hash.zero) twoByteConfig [0x41]
  obtain ⟨e, he⟩ := hprocess
  rintro ⟨chunks, hok, -⟩
  rw [he] at hok
  cases hok

end Velcrux.Chunking
