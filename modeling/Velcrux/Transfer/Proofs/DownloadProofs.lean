import Velcrux.Transfer.Download
import Velcrux.Transfer.Proofs.FreshUploadProofs

/-!
# What a download returns

Against an honest server the local file is the server's file, followed by what the staging file had
behind its end. The digest is that of the server's file, except in a single-stream session with a
skip bitmap.
-/

namespace Velcrux.Transfer

open Chunking Protocol State Storage Streams ByteFile Cutting List DownloadSession SentChunk

variable {H : HashFn} {Z : Compressor}

/-! ## Frames -/

theorem chunkContent_of_not_hole {hdr : DataFrameHeader} (hh : hdr.flags.isHole = false)
    (payload : Bytes) : chunkContent H Z hdr payload =
      (downloadContent Z hdr payload).map fun data => (data, H data) := by
  unfold chunkContent downloadContent
  simp only [hh, Bool.false_eq_true, if_false]
  split_ifs
  · cases decompressPayloadBounded Z payload maxChunkSize (some 500) <;> rfl
  · rfl

theorem readDownloadFrame_of_readFrame {buf : Bytes}
    (hhole : ∀ header rest hdr, readExact dataFrameHeaderLen buf = some (header, rest) →
      decodeDataFrameHeader header = .ok hdr → hdr.flags.isHole = false) :
    (∀ e, readFrame H Z buf = .error e → ∃ e', readDownloadFrame H Z buf = .error e') ∧
    ∀ c rest, readFrame H Z buf = .ok (some (c, rest)) →
      c.offset + c.data.length ≤ isizeMax →
      readDownloadFrame H Z buf = .ok (some ((c.offset, c.data), rest)) := by
  unfold readFrame readDownloadFrame
  cases hex : readExact dataFrameHeaderLen buf with
  | none => simp
  | some x =>
    obtain ⟨header, rest⟩ := x
    dsimp only
    cases hdec : decodeDataFrameHeader header with
    | error e => simp
    | ok hdr =>
      have hh := hhole header rest hdr hex hdec
      simp only [hh, Bool.false_eq_true, if_false]
      cases readExact hdr.chunkLen rest with
      | none => simp
      | some y =>
        obtain ⟨payload, rest⟩ := y
        simp only [chunkContent_of_not_hole hh]
        cases downloadContent Z hdr payload with
        | error e => simp [Except.map]
        | ok data =>
          simp only [Except.map]
          by_cases hhash : H data ≠ hdr.chunkHash
          · simp [hhash]
          · simp only [hhash, if_false]
            refine ⟨by simp, fun c rest' h hin => ?_⟩
            obtain ⟨rfl, rfl⟩ := h
            rw [if_neg (by simpa using hin)]

theorem frame_not_hole {c : SentChunk} (hc : c.offset < 2 ^ 64) (rest header rest' : Bytes)
    (hdr : DataFrameHeader)
    (hex : readExact dataFrameHeaderLen (c.frame H ++ rest) = some (header, rest'))
    (hdec : decodeDataFrameHeader header = .ok hdr) : hdr.flags.isHole = false := by
  rw [frame_eq, append_assoc, readExact_append (length_encodeDataFrameHeader _)] at hex
  obtain ⟨rfl, -⟩ : encodeDataFrameHeader ⟨c.offset, c.wire.length, flagsOf c.form, H c.data⟩ =
      header ∧ _ := by simpa using hex
  rw [decodeDataFrameHeader_encode _ hc (flagsOf_lt _)] at hdec
  split_ifs at hdec
  cases hdec
  exact flagsOf_isHole c.form

theorem readDownloadFrames_clean {cs : List SentChunk} (hw : ∀ c ∈ cs, c.WellFormed Z)
    (hsmall : ∀ c ∈ cs, c.data.length < 2 ^ 32)
    (hin : ∀ c ∈ cs, c.offset + c.data.length ≤ isizeMax) {fuel : ℕ}
    (hf : (cs.map (frame H)).flatten.length < fuel)
    (hclean : (readDownloadFrames H Z fuel (cs.map (frame H)).flatten).2 = none) :
    (readDownloadFrames H Z fuel (cs.map (frame H)).flatten).1 =
      cs.map fun c => (c.offset, c.data) := by
  induction cs generalizing fuel with
  | nil => cases fuel <;> rfl
  | cons c cs ih =>
    cases fuel with
    | zero => omega
    | succ fuel =>
      have hwc := hw c mem_cons_self
      have hlen := length_frame (H := H) c
      have hh : 0 < dataFrameHeaderLen := by decide
      simp only [map_cons, flatten_cons, length_append] at hf hclean ⊢
      obtain ⟨herr, hok⟩ := readDownloadFrame_of_readFrame
        (frame_not_hole hwc.offset_lt (cs.map (frame H)).flatten)
      rw [readDownloadFrames] at hclean ⊢
      by_cases hc : c.Accepted
      · rw [hok _ _ (readFrame_frame_of_accepted hwc hc _) (hin c mem_cons_self)]
          at hclean ⊢
        simp only [List.cons.injEq]
        refine ⟨rfl, ih (fun d hd => hw d (mem_cons_of_mem _ hd))
          (fun d hd => hsmall d (mem_cons_of_mem _ hd))
          (fun d hd => hin d (mem_cons_of_mem _ hd)) (by omega) hclean⟩
      · have hwire := length_wire_le hwc
        have hlt := hsmall c mem_cons_self
        obtain ⟨e, he⟩ := readFrame_frame_of_exceeds hwc hc (by omega)
          (cs.map (frame H)).flatten
        obtain ⟨e', he'⟩ := herr e he
        simp [he'] at hclean

theorem readDownloadStream_preamble {tid : TransferId} {seq : ℕ} (hs : seq < 2 ^ 64)
    (frames : Bytes) : readDownloadStream H Z tid (streamPreamble tid seq ++ frames) =
      readDownloadFrames H Z (frames.length + 1) frames := by
  have hdec := decodeDataPreamble_encode ⟨tid, 1, seq⟩ (show 1 < 2 ^ 64 by decide) hs
  unfold readDownloadStream streamPreamble
  rw [readExact_append (length_encodeDataPreamble _)]
  simp [hdec]

theorem readDownloadStream_clean {tid : TransferId} {seq : ℕ} (hs : seq < 2 ^ 64)
    {cs : List SentChunk} (hw : ∀ c ∈ cs, c.WellFormed Z)
    (hsmall : ∀ c ∈ cs, c.data.length < 2 ^ 32)
    (hin : ∀ c ∈ cs, c.offset + c.data.length ≤ isizeMax)
    (hclean : (readDownloadStream H Z tid (senderStream H tid seq cs)).2 = none) :
    (readDownloadStream H Z tid (senderStream H tid seq cs)).1 =
      cs.map fun c => (c.offset, c.data) := by
  unfold senderStream at hclean ⊢
  rw [readDownloadStream_preamble hs] at hclean ⊢
  exact readDownloadFrames_clean hw hsmall hin (Nat.lt_succ_self _) hclean

/-! ## The chunks of the server -/

namespace DownloadSession

variable (s : DownloadSession)

def cut : List (ℕ × Bytes) :=
  if 1 < s.parallelStreams ∨ s.skipBitmap.isSome then s.fixedChunks
  else cdcCut .default s.file.bytes

theorem chunkSize_pos : 0 < s.chunkSize := by
  unfold chunkSize
  split_ifs <;> decide

theorem mem_chunksToSend {idx : ℕ} : idx ∈ s.chunksToSend ↔
    idx < divCeil s.file.size s.chunkSize ∧ ∀ bm, s.skipBitmap = some bm → idx ∉ bm.set := by
  have htotal : divCeil s.file.size s.chunkSize ≤ u64Max :=
    Nat.le_trans (divCeil_le s.chunkSize_pos) (Nat.le_trans s.file.length_le (by decide))
  unfold chunksToSend
  cases h : s.skipBitmap with
  | none => simp
  | some bm => simp [missingChunks_eq htotal, mem_missingFrom]

variable {c : ℕ × Bytes}

theorem pieceOf_fixedChunks (hc : c ∈ s.fixedChunks) :
    PieceOf s.file.bytes c ∧ c.1 + c.2.length ≤ s.file.size ∧ c.2 ≠ [] ∧
      c.2.length ≤ m3ChunkSize := by
  obtain ⟨idx, hidx, rfl⟩ := mem_map.mp hc
  have hlt := lt_of_lt_divCeil s.chunkSize_pos (s.mem_chunksToSend.mp hidx).1
  have hlen : (chunkAt s.file.bytes s.chunkSize idx).2.length =
      min s.chunkSize (s.file.bytes.length - idx * s.chunkSize) := length_chunkAt
  have hsize : s.file.bytes.length = s.file.size := rfl
  have hoff : (chunkAt s.file.bytes s.chunkSize idx).1 = idx * s.chunkSize := rfl
  have hpos := s.chunkSize_pos
  refine ⟨pieceOf_chunkAt _ _ _, by omega, ?_, ?_⟩
  · rw [ne_eq, ← length_eq_zero_iff]
    omega
  · have hcs : s.chunkSize ≤ m3ChunkSize := by
      unfold chunkSize
      split_ifs <;> decide
    omega

theorem pieceOf_cut (hc : c ∈ s.cut) :
    PieceOf s.file.bytes c ∧ c.1 + c.2.length ≤ s.file.size ∧ c.2 ≠ [] ∧
      c.2.length < 2 ^ 32 := by
  unfold cut at hc
  split_ifs at hc
  · obtain ⟨h1, h2, h3, h4⟩ := s.pieceOf_fixedChunks hc
    exact ⟨h1, h2, h3, Nat.lt_of_le_of_lt h4 (by decide)⟩
  · have hcut := cut_cdcCut .default s.file.bytes
    refine ⟨hcut.pieceOf c hc, hcut.inside c hc, hcut.nonempty c hc, ?_⟩
    exact Nat.lt_of_le_of_lt (Chunker.length_le_limit (mem_of_mem_layOut hc)) (by decide)

theorem covers_cut {i : ℕ} (hi : i < s.file.size) :
    (∃ c ∈ s.cut, Covers c i) ∨ ∃ bm, s.skipBitmap = some bm ∧ i / deltaChunkSize ∈ bm.set := by
  unfold cut
  split_ifs with hfixed
  · have hidx := div_lt_divCeil s.chunkSize_pos hi
    by_cases hskip : ∃ bm, s.skipBitmap = some bm ∧ i / s.chunkSize ∈ bm.set
    · obtain ⟨bm, hbm, hmem⟩ := hskip
      have hcs : s.chunkSize = deltaChunkSize := by simp [chunkSize, hbm]
      exact .inr ⟨bm, hbm, hcs ▸ hmem⟩
    · refine .inl ⟨_, mem_map.mpr ⟨i / s.chunkSize, s.mem_chunksToSend.mpr ⟨hidx, ?_⟩, rfl⟩,
        covers_chunkAt s.chunkSize_pos hi⟩
      intro bm hbm hmem
      exact hskip ⟨bm, hbm, hmem⟩
  · refine .inl (exists_covers_layOut (Nat.zero_le i) ?_)
    rw [pieces_flatten]
    simpa [SourceFile.size] using hi

def senders (Z : Compressor) (workers : List ℕ) (w : ℕ) : List SentChunk :=
  sentChunks Z s.compression .withDefaults
    (if 1 < s.parallelStreams then workerChunks s.cut workers w else s.cut)

def sendersCount : ℕ := if 1 < s.parallelStreams then s.parallelStreams else 1

theorem dataStreams_eq {sched : Schedule} (hs : s.Possible sched) :
    s.dataStreams H Z sched =
      .ok (senderStreams H s.transferId s.sendersCount (s.senders Z sched.workers)) := by
  unfold dataStreams senderStreams senderStream sendersCount senders cut
  by_cases hp : 1 < s.parallelStreams
  · simp [hp, sendChunks_eq]
  · simp only [hp, if_false, false_or]
    cases hbm : s.skipBitmap with
    | some bm => simp [sendChunks_eq]
    | none =>
      rw [chunkerLoop_createChunker, hs.reads_flatten]
      simp [sendChunks_eq]
      rfl

theorem place_mem_cut {workers : List ℕ} {w : ℕ} {c : SentChunk}
    (h : c ∈ s.senders Z workers w) : (c.offset, c.data) ∈ s.cut := by
  have hplace : (c.offset, c.data) ∈
      if 1 < s.parallelStreams then workerChunks s.cut workers w else s.cut := by
    rw [← sentChunks_places s.compression .withDefaults
      (if 1 < s.parallelStreams then workerChunks s.cut workers w else s.cut)]
    exact mem_map.mpr ⟨c, h, rfl⟩
  split_ifs at hplace
  · exact mem_of_mem_workerChunks hplace
  · exact hplace

theorem exists_sender_of_mem_cut {sched : Schedule} (hs : s.Possible sched)
    (hc : c ∈ s.cut) : ∃ w < s.sendersCount, ∃ x ∈ s.senders Z sched.workers w,
      (x.offset, x.data) = c := by
  unfold sendersCount senders
  by_cases hp : 1 < s.parallelStreams
  · have hlen : s.cut.length ≤ sched.workers.length := by
      rw [hs.workers_length hp, cut, if_pos (.inl hp)]
    obtain ⟨w, hw, hmem⟩ := exists_worker hlen (hs.workers_lt hp) hc
    simp only [hp, if_true]
    exact ⟨w, hw, exists_sentChunk _ _ hmem⟩
  · simp only [hp, if_false]
    exact ⟨0, Nat.one_pos, exists_sentChunk _ _ hc⟩

theorem senders_wellFormed (workers : List ℕ) (w : ℕ) : ∀ c ∈ s.senders Z workers w,
    c.WellFormed Z ∧ c.data.length < 2 ^ 32 ∧ c.offset + c.data.length ≤ isizeMax := by
  intro c hc
  have hmem : ∀ d ∈ (if 1 < s.parallelStreams then workerChunks s.cut workers w else s.cut),
      d ∈ s.cut := by
    intro d hd
    split_ifs at hd
    · exact mem_of_mem_workerChunks hd
    · exact hd
  have hlt : isizeMax < 2 ^ 64 := by decide
  have hfile := s.file.length_le
  have hsize : s.file.bytes.length = s.file.size := rfl
  refine ⟨sentChunks_wellFormed (fun d hd => ?_) (fun d hd => ?_) c hc, ?_, ?_⟩
  · have := (s.pieceOf_cut (hmem d hd)).2.1
    omega
  · exact (s.pieceOf_cut (hmem d hd)).2.2.1
  · exact (s.pieceOf_cut (s.place_mem_cut hc)).2.2.2
  · have := (s.pieceOf_cut (s.place_mem_cut hc)).2.1
    dsimp only at this
    omega

end DownloadSession

/-! ## Honest servers -/

namespace HonestDownload

variable (d : HonestDownload H Z)

theorem streams_eq_senders : d.streams =
    senderStreams H d.session.transferId d.session.sendersCount
      (d.session.senders Z d.sched.workers) := by
  have h := d.sent
  rw [d.session.dataStreams_eq d.possible] at h
  simpa using h.symm

theorem replies_eq : d.session.replies H =
    [some (.verifyResult d.session.transferId true (d.session.computedHash H)),
      some (.committed d.session.transferId 1)] := by
  simp [replies, finish]

theorem run_cases : d.returned = d.session.computedHash H ∧
    d.file = writeAll d.call.opened d.order ∧
    ∀ st ∈ d.streams, (readDownloadStream H Z d.session.transferId st).2 = none := by
  have h := d.run_eq
  unfold DownloadCall.run at h
  rw [d.replies_eq, d.transferId_eq] at h
  split_ifs at h
  split at h
  · cases h
  · rename_i hclean
    simp only [downloadAwait, ne_eq, not_true_eq_false, if_false, Bool.not_true, Bool.false_eq_true,
      or_self, Except.ok.injEq, Prod.mk.injEq] at h
    refine ⟨h.1.symm, h.2.symm, fun st hst => ?_⟩
    exact List.findSome?_eq_none_iff.mp hclean st hst

theorem mem_order_iff {p : ℕ × Bytes} : p ∈ d.order ↔ p ∈ d.session.cut := by
  obtain ⟨-, -, hclean⟩ := d.run_cases
  have harr := d.arrived
  unfold DownloadCall.Order at harr
  rw [d.transferId_eq] at harr
  rw [harr.perm.mem_iff, mem_flatten]
  have hread : ∀ w < d.session.sendersCount,
      (readDownloadStream H Z d.session.transferId (senderStream H d.session.transferId (w + 1)
        (d.session.senders Z d.sched.workers w))).1 =
      (d.session.senders Z d.sched.workers w).map fun c => (c.offset, c.data) := by
    intro w hw
    have hall := d.session.senders_wellFormed (Z := Z) d.sched.workers w
    have hseq : w + 1 < 2 ^ 64 := by
      have := d.session.streams_lt
      unfold sendersCount at hw
      split_ifs at hw <;> omega
    refine readDownloadStream_clean hseq (fun c hc => (hall c hc).1) (fun c hc => (hall c hc).2.1)
      (fun c hc => (hall c hc).2.2) (hclean _ ?_)
    rw [d.streams_eq_senders]
    exact mem_map.mpr ⟨w, mem_range.mpr hw, rfl⟩
  rw [d.streams_eq_senders]
  constructor
  · rintro ⟨l, hl, hp⟩
    obtain ⟨st, hst, rfl⟩ := mem_map.mp hl
    obtain ⟨w, hw, rfl⟩ := mem_map.mp hst
    rw [hread w (mem_range.mp hw)] at hp
    obtain ⟨c, hc, rfl⟩ := mem_map.mp hp
    exact d.session.place_mem_cut hc
  · intro hp
    obtain ⟨w, hw, c, hc, rfl⟩ := d.session.exists_sender_of_mem_cut d.possible hp
    refine ⟨_, mem_map.mpr ⟨_, mem_map.mpr ⟨w, mem_range.mpr hw, rfl⟩, rfl⟩, ?_⟩
    rw [hread w hw]
    exact mem_map.mpr ⟨c, hc, rfl⟩

/-- **The local file** is the server's file, and behind it what the staging file had there. -/
theorem file_eq : d.file = d.session.file.bytes ++ d.call.opened.drop d.session.file.size := by
  rw [d.run_cases.2.1]
  refine writeAll_eq_append_drop (fun p hp => ?_) (fun p hp => ?_) fun i hi => ?_
  · exact (d.session.pieceOf_cut (d.mem_order_iff.mp hp)).1
  · exact (d.session.pieceOf_cut (d.mem_order_iff.mp hp)).2.1
  · rcases d.session.covers_cut hi with ⟨c, hc, hi'⟩ | ⟨bm, hbm, hmem⟩
    · exact .inr ⟨c, d.mem_order_iff.mpr hc, hi'⟩
    · exact .inl (d.skipped bm hbm i hi hmem)

theorem computedHash_eq_iff : d.session.computedHash H = H d.session.file.bytes ↔
    1 < d.session.parallelStreams ∨ d.session.skipBitmap = none ∨
      H d.session.file.bytes = .zero := by
  have hzero : d.session.fileHash = .zero := d.fileHash_eq
  unfold computedHash
  by_cases hp : 1 < d.session.parallelStreams
  · simp [hp, hzero]
  · cases hbm : d.session.skipBitmap with
    | none => simp [hp]
    | some bm =>
      simp only [hp, if_false, hzero, false_or, reduceCtorEq]
      exact eq_comm

theorem truthful_iff_reliable : d.Truthful ↔ d.Reliable := by
  unfold Truthful Reliable
  rw [← d.computedHash_eq_iff, ← d.file_eq, ← d.run_cases.1]
  constructor
  · rintro ⟨hfile, hret⟩
    exact ⟨hret, hfile.trans hret⟩
  · rintro ⟨hret, hfile⟩
    exact ⟨hfile.trans hret.symm, hret⟩

end HonestDownload

theorem run_of_liar (c : DownloadCall) (h : Hash) :
    c.Order H Z (List.replicate c.streams (streamPreamble c.transferId 1)) [] ∧
      c.run H Z (List.replicate c.streams (streamPreamble c.transferId 1)) []
        [some (.verifyResult c.transferId true h), some (.committed c.transferId 1)] =
      .ok (h, c.opened) := by
  have hread : readDownloadStream H Z c.transferId (streamPreamble c.transferId 1) = ([], none) := by
    rw [← append_nil (streamPreamble c.transferId 1), readDownloadStream_preamble (by decide)]
    rfl
  refine ⟨.done ?_, ?_⟩
  · intro l hl
    obtain ⟨st, hst, rfl⟩ := mem_map.mp hl
    rw [eq_of_mem_replicate hst, hread]
  · have hclean : (List.replicate c.streams (streamPreamble c.transferId 1)).findSome?
        (fun st => (readDownloadStream H Z c.transferId st).2) = none := by
      rw [List.findSome?_eq_none_iff]
      intro st hst
      rw [eq_of_mem_replicate hst, hread]
    unfold DownloadCall.run
    simp [hclean, downloadAwait]

theorem not_reportsItsHash (H : HashFn) (Z : Compressor) (c : DownloadCall) :
    ¬ ReportsItsHash H Z c := by
  intro hrep
  have hlie : ∀ h, H c.opened = h := fun h =>
    hrep _ _ _ h c.opened (run_of_liar c h).1 (run_of_liar c h).2
  have hne : Hash.zero ≠ Hash.repeated 1 := by decide
  exact hne ((hlie _).symm.trans (hlie _))

/-- **The digest a download returns**: against an arbitrary server it says nothing about the local
file, whatever the call; against an honest one it is right exactly under `Reliable`. -/
theorem download_hash_iff (H : HashFn) (Z : Compressor) :
    (∀ c : DownloadCall, ¬ ReportsItsHash H Z c) ∧
      ∀ d : HonestDownload H Z, d.Truthful ↔ d.Reliable :=
  ⟨not_reportsItsHash H Z, fun d => d.truthful_iff_reliable⟩

def oneByte : SourceFile := ⟨[1], by decide⟩

def streamedDownload : HonestDownload sizeHash idleCompressor where
  session := ⟨plainContext.transferId, oneByte, statFileHash, none, 1, by decide, false⟩
  call := ⟨plainContext.transferId, none, false, 1⟩
  sched := ⟨[[1]], []⟩
  streams := [streamPreamble plainContext.transferId 1 ++
    encodeDataFrameMaybeCompressed idleCompressor 0 (sizeHash [1]) [1] false]
  order := [(0, [1])]
  returned := sizeHash [1]
  file := [1]
  fileHash_eq := rfl
  transferId_eq := rfl
  streams_eq := rfl
  possible := ⟨by decide, rfl, by decide, by decide⟩
  sent := by rfl
  skipped := by
    intro bm hbm
    cases hbm
  arrived := by
    have hread : (readDownloadStream sizeHash idleCompressor plainContext.transferId
        (streamPreamble plainContext.transferId 1 ++
          encodeDataFrameMaybeCompressed idleCompressor 0 (sizeHash [1]) [1] false)).1 =
        [(0, [1])] := by decide
    simp only [DownloadCall.Order, map_cons, map_nil, hread]
    exact merges_flatten [[(0, [1])]]
  run_eq := by decide

def skippedDownload : HonestDownload sizeHash idleCompressor where
  session := ⟨plainContext.transferId, oneByte, statFileHash,
    some (ChunkBitmap.new.markComplete 0 1), 1, by decide, false⟩
  call := ⟨plainContext.transferId, some [1], true, 1⟩
  sched := ⟨[[1]], []⟩
  streams := [streamPreamble plainContext.transferId 1]
  order := []
  returned := .zero
  file := [1]
  fileHash_eq := rfl
  transferId_eq := rfl
  streams_eq := rfl
  possible := ⟨by decide, rfl, by decide, by decide⟩
  sent := by decide
  skipped := by
    intro bm _ i hi _
    obtain rfl : i = 0 := by simpa [oneByte, SourceFile.size] using hi
    exact ⟨by decide, rfl⟩
  arrived := by
    refine .done fun l hl => ?_
    have hread : (readDownloadStream sizeHash idleCompressor plainContext.transferId
        (streamPreamble plainContext.transferId 1)).1 = [] := by decide
    simpa [hread] using hl
  run_eq := by decide

theorem download_hash_streamed : streamedDownload.Reliable ∧ streamedDownload.Truthful := by
  have hrel : streamedDownload.Reliable := ⟨.inr (.inl rfl), rfl⟩
  exact ⟨hrel, ((download_hash_iff sizeHash idleCompressor).2 streamedDownload).mpr hrel⟩

/-- An honest download that returns another digest than that of its file. -/
theorem not_truthful_skipped : skippedDownload.file = oneByte.bytes ∧
    skippedDownload.returned ≠ sizeHash skippedDownload.file ∧ ¬ skippedDownload.Truthful := by
  have hne : Hash.zero ≠ sizeHash [1] := by decide
  exact ⟨rfl, hne, fun h => hne h.1.symm⟩

end Velcrux.Transfer
