import Velcrux.Chunking.Engine
import Velcrux.Chunking.Proofs.ChunkerProofs

/-!
# What the chunk engine cuts

The chunks of `chunk_reader` are the pieces of the chunker laid out from the start of the input, in
whatever portions the input was read.
-/

namespace Velcrux.Chunking

open Cutting Chunker List

theorem drainPending_layOut (ps : List Bytes) (rest : Bytes) (off : ℕ) :
    drainPending (ps.flatten ++ rest) off ((layOut off ps).map toBoundary) =
      .ok (layOut off ps, rest, off + ps.flatten.length) := by
  induction ps generalizing off with
  | nil => simp [drainPending, layOut]
  | cons p ps ih =>
    have hneed : (toBoundary (off, p)).endOff - off = p.length := by
      simp [toBoundary, ChunkBoundary.endOff]
    have hend : (toBoundary (off, p)).endOff = off + p.length := rfl
    have hlen : off + (p :: ps).flatten.length = off + p.length + ps.flatten.length := by
      simp [Nat.add_assoc]
    rw [layOut, map_cons, flatten_cons, append_assoc, drainPending,
      hneed, hend, if_neg (by simp), drop_left, take_left, ih]
    rw [← flatten_cons, hlen]

variable (mode : ChunkMode) (params : ChunkParams)

theorem inChunk_createChunker : (createChunker mode params).inChunk = 0 := by cases mode <;> rfl

theorem nextOffset_createChunker :
    (createChunker mode params).nextOffset = 0 := by cases mode <;> rfl

theorem finish_of_ready {c : Chunker} (hr : c.Ready) :
    c.finish = .ok (if c.inChunk = 0 then none else some ⟨c.nextOffset, c.inChunk⟩) := by
  cases c with
  | fixed c =>
    have hf : c.finished = false := hr.1
    simp [finish, hf]
  | rolling c =>
    have hf : c.finished = false := hr
    simp [finish, hf]
  | fastCdc c =>
    have hf : c.finished = false := hr
    simp [finish, hf]

theorem drainPending_finish (p : Bytes) (off : ℕ) :
    drainPending p off (if p.length = 0 then none else some (⟨off, p.length⟩ : ChunkBoundary)).toList =
      .ok (layOut off (if p = [] then [] else [p]),
        [], off + p.length) := by
  by_cases hp : p = []
  · subst hp
    simp [drainPending, layOut]
  · have hlen : p.length ≠ 0 := fun h => hp (length_eq_zero_iff.mp h)
    rw [if_neg hlen, if_neg hp]
    have h := drainPending_layOut [p] [] off
    simpa [layOut, toBoundary] using h

theorem chunkReaderLoop_eq {c : Chunker} {p : Bytes} (hp : p.length = c.inChunk) (hr : c.Ready)
    (reads : List Bytes) :
    chunkReaderLoop c p c.nextOffset reads =
      .ok (layOut c.nextOffset
        (let r := scan cutStep c p reads.flatten
          if r.2.2 = [] then r.2.1 else r.2.1 ++ [r.2.2])) := by
  induction reads generalizing c p with
  | nil =>
    rw [chunkReaderLoop, finish_of_ready hr, ← hp]
    dsimp only
    rw [drainPending_finish]
    simp [scan]
  | cons buf reads ih =>
    have hflat := scan_flatten cutStep c p buf
    obtain ⟨t1, t2, t3⟩ := scan_tracks hp hr buf
    rw [chunkReaderLoop, push_eq_feedAll hr, feedAll_eq_scan hp]
    dsimp only
    rw [← hflat, drainPending_layOut, ← t2]
    dsimp only
    rw [ih t1 t3, flatten_cons, scan_append]
    dsimp only
    rw [t2]
    split_ifs with h1
    · rw [layOut_append]
    · rw [append_assoc, layOut_append _ (scan cutStep c p buf).2.1]

theorem chunkReaderLoop_createChunker
    (reads : List Bytes) : chunkReaderLoop (createChunker mode params) [] 0 reads =
      .ok (layOut 0 (pieces cutStep (createChunker mode params) reads.flatten)) := by
  have hloop := chunkReaderLoop_eq (p := []) (inChunk_createChunker mode params).symm
    (ready_createChunker _ _) reads
  rw [nextOffset_createChunker] at hloop
  exact hloop

/-- **`chunk_reader` cuts its input into the pieces of the chunker.** -/
theorem chunkReader_eq {mode : ChunkMode} {params : ChunkParams} {readBufferSize : ℕ}
    (h1 : readBufferSize ≤ isizeMax) (h2 : params.max ≤ isizeMax) (reads : List Bytes) :
    chunkReader mode params readBufferSize reads =
      .ok (layOut 0 (pieces cutStep (createChunker mode params) reads.flatten)) := by
  have hmax1 : Nat.max readBufferSize 4096 = max readBufferSize 4096 := rfl
  have hmax2 : Nat.max params.max readBufferSize = max params.max readBufferSize := rfl
  have hsz : 4096 ≤ isizeMax := by decide
  unfold chunkReader
  rw [if_neg (by omega), chunkReaderLoop_createChunker]

end Velcrux.Chunking
