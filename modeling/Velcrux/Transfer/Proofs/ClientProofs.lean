import Velcrux.Transfer.ClientCut

/-!
# The streams of a client

The streams of every pipeline are the frames of the chunks of `clientCut`, distributed over senders;
the receiver reads them back up to the first chunk it does not accept.
-/

namespace Velcrux.Transfer

open Chunking Protocol State Storage ByteFile Cutting Streams List SentChunk

variable {H : HashFn} {Z : Compressor} {cfg : PipelineConfig} {file : SourceFile}
  {bm : ChunkBitmap}
variable {seq w : ℕ} {c : ℕ × Bytes} {chunks : List (ℕ × Bytes)} {workers : List ℕ} {s : SentChunk}
  {sched : Schedule} {order : List ReceivedChunk}

def senderStream (H : HashFn) (tid : TransferId) (seq : ℕ) (cs : List SentChunk) : Bytes :=
  streamPreamble tid seq ++ (cs.map (frame H)).flatten

def senderStreams (H : HashFn) (tid : TransferId) (n : ℕ) (sent : ℕ → List SentChunk) :
    List Bytes :=
  (List.range n).map fun w => senderStream H tid (w + 1) (sent w)

/-! ## The streams of the client -/

theorem chunkSize_pos (cfg : PipelineConfig) (bm : ChunkBitmap) (n : ℕ) :
    0 < cfg.chunkSize bm n := by
  obtain ⟨h1, h2, h3⟩ := cfg.chunkParams.accepted
  unfold PipelineConfig.chunkSize
  split_ifs
  · omega
  · decide
  · decide

theorem mem_workerChunks : c ∈ workerChunks chunks workers w ↔ (c, w) ∈ chunks.zip workers := by
  simp only [workerChunks, mem_map, mem_filter, decide_eq_true_eq]
  constructor
  · rintro ⟨⟨c', w'⟩, ⟨h, rfl⟩, rfl⟩
    exact h
  · exact fun h => ⟨(c, w), ⟨h, rfl⟩, rfl⟩

theorem mem_of_mem_workerChunks (h : c ∈ workerChunks chunks workers w) : c ∈ chunks :=
  (of_mem_zip (mem_workerChunks.mp h)).1

def someReads (cfg : PipelineConfig) (file : SourceFile) : List Bytes :=
  if cfg.readBufferSize = 0 then [] else file.bytes.map fun b => [b]

theorem exists_sentChunk (compression : Bool) (sel : Selector) {cs : List (ℕ × Bytes)} (hc : c ∈ cs) :
    ∃ s ∈ sentChunks Z compression sel cs, (s.offset, s.data) = c := by
  rw [← sentChunks_places compression sel cs] at hc
  exact mem_map.mp hc

theorem exists_worker {n : ℕ} (hlen : chunks.length ≤ workers.length) (hlt : ∀ w ∈ workers, w < n)
    (hc : c ∈ chunks) : ∃ w < n, c ∈ workerChunks chunks workers w := by
  obtain ⟨i, hi, rfl⟩ := getElem_of_mem hc
  have hz : (chunks[i], workers[i]) ∈ chunks.zip workers := by
    rw [mem_iff_getElem]
    exact ⟨i, by simp; omega, by simp⟩
  exact ⟨workers[i], hlt _ (getElem_mem _), mem_workerChunks.mpr hz⟩

end Velcrux.Transfer
