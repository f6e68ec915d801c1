import Velcrux.Manifest.Proofs.ReaderProofs
import Velcrux.Sync.ManifestReceive

/-!
# The receivers of a manifest compared

Both receivers accept frames that carry a manifest; one of them also counts the entries and compares
the digest. What it writes to the spill file is read back entry by entry.
-/

namespace Velcrux.Sync

open Decoding Manifest Wire List Nat LoadedBatch ManifestReader ManifestBatchDecoder Protocol ManifestBatch ScannedEntry SortedMap
open Protocol (Compressor)

variable {Z : Compressor} {H : HashFn}

/-! ## The loop over the frames -/

section Loop

variable {σ ρ : Type} {onBatch : σ → ManifestBatch → Except VelcruxError σ}
  {onEnd : σ → ManifestEnd → Except VelcruxError ρ} {begun : ManifestBegin}

variable {frame : ReceivedFrame} {frames : List ReceivedFrame} {batch : ManifestBatch}
  {batches : List ManifestBatch} {hash : Hash}

theorem batchType_ne_endType : manifestBatchType ≠ manifestEndType := by decide

theorem foldlM_cons_eq_ok_iff {s s' : σ} :
    (batch :: batches).foldlM onBatch s = .ok s' ↔
      ∃ s1, onBatch s batch = .ok s1 ∧ batches.foldlM onBatch s1 = .ok s' := by
  rw [foldlM_cons]
  cases hstep : onBatch s batch with
  | error e => simp [bind, Except.bind]
  | ok s1 => simp [bind, Except.bind]

theorem framedBatches_batch (hbatch : frame.typeByte = manifestBatchType)
    (hdecode : decode.run frame.payload = .ok batch) :
    FramedBatches hash (frame :: frames) batches ↔
      ∃ later, FramedBatches hash frames later ∧ batches = batch :: later := by
  simp [FramedBatches, hbatch, batchType_ne_endType, hdecode]

theorem framedBatches_end (hend : frame.typeByte = manifestEndType) :
    FramedBatches hash (frame :: frames) batches ↔
      ManifestEnd.decode.run frame.payload = .ok ⟨hash⟩ ∧ batches = [] := by
  simp [FramedBatches, hend, batchType_ne_endType.symm]

theorem recvBatches_eq_ok_iff {s : σ} {r : ρ} :
    recvBatches onBatch onEnd begun s frames = .ok r ↔
      ∃ batches s', FramedBatches begun.manifestHash frames batches ∧
        batches.foldlM onBatch s = .ok s' ∧ onEnd s' ⟨begun.manifestHash⟩ = .ok r := by
  induction frames generalizing s with
  | nil => simp [recvBatches, FramedBatches]
  | cons frame frames ih =>
    by_cases hbatch : frame.typeByte = manifestBatchType
    · cases hdecode : decode.run frame.payload with
      | error e => simp [recvBatches, FramedBatches, hbatch, batchType_ne_endType, hdecode]
      | ok batch =>
        have hstep : recvBatches onBatch onEnd begun s (frame :: frames) = .ok r ↔
            ∃ s1, onBatch s batch = .ok s1 ∧ recvBatches onBatch onEnd begun s1 frames = .ok r := by
          cases hs : onBatch s batch <;> simp [recvBatches, hbatch, hdecode, hs]
        rw [hstep]
        constructor
        · rintro ⟨s1, hs1, hrec⟩
          obtain ⟨later, s', hframed, hfold, honEnd⟩ := ih.mp hrec
          exact ⟨batch :: later, s', (framedBatches_batch hbatch hdecode).mpr ⟨later, hframed, rfl⟩,
            foldlM_cons_eq_ok_iff.mpr ⟨s1, hs1, hfold⟩, honEnd⟩
        · rintro ⟨batches, s', hframed, hfold, honEnd⟩
          obtain ⟨later, hlater, rfl⟩ := (framedBatches_batch hbatch hdecode).mp hframed
          obtain ⟨s1, hs1, hfold⟩ := foldlM_cons_eq_ok_iff.mp hfold
          exact ⟨s1, hs1, ih.mpr ⟨later, s', hlater, hfold, honEnd⟩⟩
    · by_cases hend : frame.typeByte = manifestEndType
      · rw [recvBatches, if_neg hbatch, if_pos hend]
        constructor
        · intro h
          split at h
          next => simp at h
          next ended hdecode =>
            split_ifs at h with hhash
            have hended : ended = ⟨begun.manifestHash⟩ := by
              cases ended
              simpa using hhash
            subst hended
            exact ⟨[], s, (framedBatches_end hend).mpr ⟨hdecode, rfl⟩, rfl, h⟩
        · rintro ⟨batches, s', hframed, hfold, honEnd⟩
          obtain ⟨hdecode, rfl⟩ := (framedBatches_end hend).mp hframed
          obtain rfl : s = s' := by simpa [pure, Except.pure] using hfold
          rw [hdecode]
          simpa using honEnd
      · simp [recvBatches, FramedBatches, hbatch, hend]

end Loop

/-! ## The batches that a receiver handles -/

variable {batches : List ManifestBatch}

section Batches

variable {σ : Type} {onBatch : σ → ManifestBatch → Except VelcruxError σ}
  {fits : σ → LoadedBatch → Prop} {next : σ → LoadedBatch → σ}

def AllFit (fits : σ → LoadedBatch → Prop) (next : σ → LoadedBatch → σ) : σ → List LoadedBatch → Prop
  | _, [] => True
  | s, b :: loaded => fits s b ∧ AllFit fits next (next s b) loaded

theorem foldlM_eq_ok_iff (hstep : ∀ s batch s', onBatch s batch = .ok s' ↔
      ∃ b : LoadedBatch, b.batch = batch ∧ b.Loads Z ∧ fits s b ∧ s' = next s b)
    {s s' : σ} :
    batches.foldlM onBatch s = .ok s' ↔
      ∃ loaded : List LoadedBatch, loaded.map batch = batches ∧
        (∀ b ∈ loaded, b.Loads Z) ∧ AllFit fits next s loaded ∧ s' = loaded.foldl next s := by
  induction batches generalizing s with
  | nil =>
    constructor
    · intro h
      obtain rfl : s = s' := by simpa [pure, Except.pure] using h
      exact ⟨[], rfl, by simp, trivial, rfl⟩
    · rintro ⟨loaded, hmap, -, -, rfl⟩
      obtain rfl := map_eq_nil_iff.mp hmap
      rfl
  | cons batch batches ih =>
    rw [foldlM_cons_eq_ok_iff]
    constructor
    · rintro ⟨s1, hs1, hfold⟩
      obtain ⟨b, rfl, hloads, hfits, rfl⟩ := (hstep s batch s1).mp hs1
      obtain ⟨loaded, rfl, hall, hallFit, rfl⟩ := ih.mp hfold
      refine ⟨b :: loaded, rfl, fun b' hb' => ?_, ⟨hfits, hallFit⟩, rfl⟩
      rcases mem_cons.mp hb' with rfl | hb'
      · exact hloads
      · exact hall b' hb'
    · rintro ⟨loaded, hmap, hall, hallFit, rfl⟩
      obtain ⟨b, loaded, rfl, rfl, rfl⟩ := map_eq_cons_iff.mp hmap
      have hb := hall b mem_cons_self
      exact ⟨next s b, (hstep s _ _).mpr ⟨b, rfl, hb, hallFit.1, rfl⟩,
        ih.mpr ⟨loaded, rfl, fun b' hb' => hall b' (mem_cons_of_mem b hb'), hallFit.2, rfl⟩⟩

theorem allFit_iff_sum (total : σ → ℕ) (measure : LoadedBatch → ℕ) {limit : ℕ}
    (hnext : ∀ s b, total (next s b) = total s + measure b) {s : σ} (hs : total s ≤ limit)
    {loaded : List LoadedBatch} :
    AllFit (fun s b => total s + measure b ≤ limit) next s loaded ↔
      total s + (loaded.map measure).sum ≤ limit := by
  induction loaded generalizing s with
  | nil => simpa [AllFit] using hs
  | cons b loaded ih =>
    rw [AllFit, map_cons, sum_cons, ← add_assoc, ← hnext]
    constructor
    · rintro ⟨hfits, hall⟩
      exact (ih hfits).mp hall
    · intro hsum
      have hfits : total (next s b) ≤ limit := (le_add_right _ _).trans hsum
      exact ⟨hfits, (ih hfits).mpr hsum⟩

theorem allFit_and {fits' : σ → LoadedBatch → Prop} {s : σ} {loaded : List LoadedBatch} :
    AllFit (fun s b => fits s b ∧ fits' s b) next s loaded ↔
      AllFit fits next s loaded ∧ AllFit fits' next s loaded := by
  induction loaded generalizing s with
  | nil => simp [AllFit]
  | cons b loaded ih =>
    rw [AllFit, AllFit, AllFit, ih]
    tauto

end Batches

def keepNext (H : HashFn) (s : ManifestBatchDecoder × DirectoryInventory) (b : LoadedBatch) :
    ManifestBatchDecoder × DirectoryInventory :=
  ({ s.1 with
      hashed := s.1.hashed ++ b.raw
      totalEntriesRead := s.1.totalEntriesRead + b.entries.length
      totalManifestBytes := s.1.totalManifestBytes + b.data.length },
    insertAll H s.2 b.entries)

def spillNext (s : SpillState) (b : LoadedBatch) : SpillState :=
  ⟨s.spill ++ spillRecord b.batch, s.hashed ++ b.raw, s.totalEntries + b.entries.length,
    s.totalManifestBytes + b.data.length⟩

theorem keepBatch_eq_ok_iff (s : ManifestBatchDecoder × DirectoryInventory) (batch : ManifestBatch)
    (s' : ManifestBatchDecoder × DirectoryInventory) :
    keepBatch Z H s batch = .ok s' ↔
      ∃ b : LoadedBatch, b.batch = batch ∧ b.Loads Z ∧
        s.1.totalManifestBytes + b.data.length ≤ maxManifestBytes ∧ s' = keepNext H s b := by
  constructor
  · intro h
    cases hdata : decompressBatch Z batch.compressedPayload with
    | error e => simp [keepBatch, decodeBatch, hdata] at h
    | ok data =>
      by_cases hfits : maxManifestBytes < s.1.totalManifestBytes + data.length
      · simp [keepBatch, decodeBatch, hdata, hfits] at h
      · cases hread : readEntries batch.entryCount.toNat data with
        | error e => simp [keepBatch, decodeBatch, hdata, hfits, hread] at h
        | ok x =>
          simp only [keepBatch, decodeBatch, hdata, hfits, hread, if_false,
            Except.ok.injEq] at h
          exact ⟨⟨batch, data, x.1, x.2⟩, rfl, ⟨hdata, hread⟩, not_lt.mp hfits, h.symm⟩
  · rintro ⟨b, rfl, ⟨hdata, hread⟩, hfits, rfl⟩
    simp [keepBatch, decodeBatch, hdata, hread, not_lt.mpr hfits, keepNext]

theorem spillBatch_eq_ok_iff (s : SpillState) (batch : ManifestBatch) (s' : SpillState) :
    spillBatch Z s batch = .ok s' ↔
      ∃ b : LoadedBatch, b.batch = batch ∧ b.Loads Z ∧
        (s.totalManifestBytes + b.data.length ≤ maxManifestBytes ∧
          s.totalEntries + b.entries.length ≤ maxManifestEntries) ∧ s' = spillNext s b := by
  constructor
  · intro h
    cases hdata : decompressBatch Z batch.compressedPayload with
    | error e => simp [spillBatch, hdata] at h
    | ok data =>
      by_cases hfits : maxManifestBytes < s.totalManifestBytes + data.length
      · simp [spillBatch, hdata, hfits] at h
      · cases hread : readEntries batch.entryCount.toNat data with
        | error e => simp [spillBatch, hdata, hfits, hread] at h
        | ok x =>
          by_cases hcount : maxManifestEntries < s.totalEntries + x.1.length
          · simp [spillBatch, hdata, hfits, hread, hcount] at h
          · simp only [spillBatch, hdata, hfits, hread, hcount, if_false, Except.ok.injEq] at h
            exact ⟨⟨batch, data, x.1, x.2⟩, rfl, ⟨hdata, hread⟩,
              ⟨not_lt.mp hfits, not_lt.mp hcount⟩, h.symm⟩
  · rintro ⟨b, rfl, ⟨hdata, hread⟩, ⟨hfits, hcount⟩, rfl⟩
    simp [spillBatch, hdata, hread, not_lt.mpr hfits, not_lt.mpr hcount, spillNext]

theorem foldl_keepNext (s : ManifestBatchDecoder × DirectoryInventory) (loaded : List LoadedBatch) :
    (loaded.foldl (keepNext H) s).2 = insertAll H s.2 (loaded.flatMap entries) := by
  induction loaded generalizing s with
  | nil => rfl
  | cons b loaded ih =>
    rw [foldl_cons, ih, flatMap_cons, insertAll, insertAll, foldl_append]
    rfl

theorem foldl_spillNext (s : SpillState) (loaded : List LoadedBatch) :
    loaded.foldl spillNext s =
      ⟨s.spill ++ loaded.flatMap (fun b => spillRecord b.batch),
        s.hashed ++ loaded.flatMap raw,
        s.totalEntries + (loaded.flatMap entries).length,
        s.totalManifestBytes + (loaded.map fun b => b.data.length).sum⟩ := by
  induction loaded generalizing s with
  | nil => simp
  | cons b loaded ih =>
    rw [foldl_cons, ih]
    simp [spillNext, add_assoc]

/-! ## What the receivers accept -/

variable {frames : List ReceivedFrame}

def Framed (frames : List ReceivedFrame) (begun : ManifestBegin) (batches : List ManifestBatch) :
    Prop :=
  ∃ frame later, frames = frame :: later ∧ frame.typeByte = manifestBeginType ∧
    ManifestBegin.decode.run frame.payload = .ok begun ∧
    FramedBatches begun.manifestHash later batches

theorem received_iff {σ ρ : Type} {onBatch : σ → ManifestBatch → Except VelcruxError σ}
    {onEnd : ManifestBegin → σ → ManifestEnd → Except VelcruxError ρ} {start : ManifestBegin → σ}
    {r : ρ} :
    (match recvBegin frames with
      | .error e => Except.error e
      | .ok (begun, later) => recvBatches onBatch (onEnd begun) begun (start begun) later) = .ok r ↔
      ∃ begun batches s', Framed frames begun batches ∧
        batches.foldlM onBatch (start begun) = .ok s' ∧
        onEnd begun s' ⟨begun.manifestHash⟩ = .ok r := by
  cases frames with
  | nil => simp [recvBegin, Framed]
  | cons frame later =>
    rw [recvBegin]
    by_cases htype : frame.typeByte = manifestBeginType
    · rw [if_neg (not_not.mpr htype)]
      cases hdecode : ManifestBegin.decode.run frame.payload with
      | error e => simp [Framed, hdecode]
      | ok begun =>
        refine recvBatches_eq_ok_iff.trans ⟨?_, ?_⟩
        · rintro ⟨batches, s', hframed, hfold, hend⟩
          exact ⟨begun, batches, s', ⟨frame, later, rfl, htype, hdecode, hframed⟩, hfold, hend⟩
        · rintro ⟨begun', batches, s', ⟨_, _, heq, -, hdecode', hframed⟩, hfold, hend⟩
          cases heq
          obtain rfl := Except.ok.inj (hdecode.symm.trans hdecode')
          exact ⟨batches, s', hframed, hfold, hend⟩
    · simp [Framed, htype]

theorem keepBatches_eq_ok_iff {hash : Hash} {s' : ManifestBatchDecoder × DirectoryInventory} :
    batches.foldlM (keepBatch Z H) (⟨hash, [], 0, 0⟩, empty) = .ok s' ↔
      ∃ loaded : List LoadedBatch, loaded.map batch = batches ∧
        (∀ b ∈ loaded, b.Loads Z) ∧
        (loaded.map fun b => b.data.length).sum ≤ maxManifestBytes ∧
        s' = loaded.foldl (keepNext H) (⟨hash, [], 0, 0⟩, empty) := by
  have hsum : ∀ loaded, AllFit (fun s b => s.1.totalManifestBytes + b.data.length ≤ maxManifestBytes)
      (keepNext H) (⟨hash, [], 0, 0⟩, empty) loaded ↔
        0 + (loaded.map fun b => b.data.length).sum ≤ maxManifestBytes := fun loaded =>
    allFit_iff_sum (fun s : ManifestBatchDecoder × DirectoryInventory => s.1.totalManifestBytes) _
      (fun _ _ => rfl) (zero_le _)
  rw [foldlM_eq_ok_iff keepBatch_eq_ok_iff]
  simp only [hsum, zero_add]

theorem spillBatches_eq_ok_iff {spill : Bytes} {s' : SpillState} :
    batches.foldlM (spillBatch Z) ⟨spill, [], 0, 0⟩ = .ok s' ↔
      ∃ loaded : List LoadedBatch, loaded.map batch = batches ∧
        (∀ b ∈ loaded, b.Loads Z) ∧
        ((loaded.map fun b => b.data.length).sum ≤ maxManifestBytes ∧
          (loaded.flatMap entries).length ≤ maxManifestEntries) ∧
        s' = loaded.foldl spillNext ⟨spill, [], 0, 0⟩ := by
  have hbytes : ∀ loaded, AllFit (fun s b => s.totalManifestBytes + b.data.length ≤ maxManifestBytes)
      spillNext ⟨spill, [], 0, 0⟩ loaded ↔
        0 + (loaded.map fun b => b.data.length).sum ≤ maxManifestBytes := fun loaded =>
    allFit_iff_sum SpillState.totalManifestBytes _ (fun _ _ => rfl) (zero_le _)
  have hcount : ∀ loaded, AllFit (fun s b => s.totalEntries + b.entries.length ≤ maxManifestEntries)
      spillNext ⟨spill, [], 0, 0⟩ loaded ↔
        0 + (loaded.map fun b => b.entries.length).sum ≤ maxManifestEntries := fun loaded =>
    allFit_iff_sum SpillState.totalEntries _ (fun _ _ => rfl) (zero_le _)
  rw [foldlM_eq_ok_iff spillBatch_eq_ok_iff]
  simp only [allFit_and, hbytes, hcount, zero_add, length_flatMap]

theorem recvDirectoryManifest_eq_ok_iff {inventory : DirectoryInventory} :
    recvDirectoryManifest Z H frames = .ok inventory ↔
      ∃ begun loaded, Carries Z frames begun loaded ∧
        inventory = insertAll H .empty (loaded.flatMap entries) := by
  refine received_iff.trans ⟨?_, ?_⟩
  · rintro ⟨begun, batches, s', hframed, hfold, hend⟩
    obtain ⟨loaded, rfl, hloads, hbytes, rfl⟩ := keepBatches_eq_ok_iff.mp hfold
    refine ⟨begun, loaded, ⟨hframed, hloads, hbytes⟩, ?_⟩
    rw [← Except.ok.inj hend, foldl_keepNext]
  · rintro ⟨begun, loaded, hcarries, rfl⟩
    refine ⟨begun, _, _, hcarries.framed,
      keepBatches_eq_ok_iff.mpr ⟨loaded, rfl, hcarries.loads, hcarries.bytes, rfl⟩, ?_⟩
    rw [foldl_keepNext]

/-- `recv_streaming_manifest_to_spill` accepts what carries a manifest with the announced digest and
no more entries than a manifest may have. -/
theorem recvStreamingManifestToSpill_eq_ok_iff {begun : ManifestBegin} {ended : ManifestEnd}
    {spill : Bytes} :
    recvStreamingManifestToSpill Z H frames = .ok (begun, ended, spill) ↔
      ∃ loaded, Carries Z frames begun loaded ∧
        (loaded.flatMap entries).length ≤ maxManifestEntries ∧
        H (loaded.flatMap raw) = begun.manifestHash ∧
        ended = ⟨begun.manifestHash⟩ ∧
        spill = spillMagic ++ [spillVersion] ++ loaded.flatMap fun b => spillRecord b.batch := by
  have hspillEnd : ∀ (begun' : ManifestBegin) (s : SpillState) (ended' : ManifestEnd),
      spillEnd H begun' s ended' = .ok (begun, ended, spill) ↔
        H s.hashed = begun'.manifestHash ∧ begun' = begun ∧ ended' = ended ∧ s.spill = spill := by
    intro begun' s ended'
    by_cases hhash : H s.hashed = begun'.manifestHash <;> simp [spillEnd, hhash]
  refine received_iff.trans ⟨?_, ?_⟩
  · rintro ⟨begun', batches, s', hframed, hfold, hend⟩
    obtain ⟨loaded, rfl, hloads, ⟨hbytes, hcount⟩, rfl⟩ := spillBatches_eq_ok_iff.mp hfold
    obtain ⟨hhash, rfl, rfl, rfl⟩ := (hspillEnd _ _ _).mp hend
    rw [foldl_spillNext] at hhash
    refine ⟨loaded, ⟨hframed, hloads, hbytes⟩, hcount, hhash, rfl, ?_⟩
    rw [foldl_spillNext]
  · rintro ⟨loaded, hcarries, hcount, hhash, rfl, rfl⟩
    refine ⟨begun, _, _, hcarries.framed, spillBatches_eq_ok_iff.mpr
      ⟨loaded, rfl, hcarries.loads, ⟨hcarries.bytes, hcount⟩, rfl⟩, ?_⟩
    rw [foldl_spillNext]
    exact (hspillEnd _ _ _).mpr ⟨hhash, rfl, rfl, rfl⟩

/-! ## Reading the spill file -/

theorem entryCount_le_of_decode {payload : Bytes} {batch : ManifestBatch}
    (h : decode.run payload = .ok batch) :
    batch.entryCount.toNat ≤ manifestBatchSize ∧
      batch.compressedPayload.length ≤ payload.length := by
  obtain ⟨c, hrun⟩ := run_eq_ok_iff.mp h
  unfold decode at hrun
  simp only [bind_eq_ok_iff] at hrun
  obtain ⟨_, c1, hneed, batchIndex, c2, hindex, entryCount, c3, hcount, _, c4, hrefuse, rest, c5,
    hrest, hreturn⟩ := hrun
  have hc1 : c1 = ⟨0, payload⟩ := by
    rw [need] at hneed
    split_ifs at hneed
    exact (Prod.mk.inj (Except.ok.inj hneed)).2.symm
  have hc4 : entryCount.toNat ≤ manifestBatchSize ∧ c4 = c3 := by
    rw [refuse] at hrefuse
    split_ifs at hrefuse with hle
    exact ⟨not_lt.mp hle, (Prod.mk.inj (Except.ok.inj hrefuse)).2.symm⟩
  cases hindex
  cases hcount
  cases hrest
  cases hreturn
  refine ⟨hc4.1, ?_⟩
  rw [hc4.2, hc1]
  simp

theorem small_of_framedBatches {hash : Hash} (h : FramedBatches hash frames batches) :
    ∀ batch ∈ batches, batch.entryCount.toNat ≤ manifestBatchSize ∧
      batch.compressedPayload.length < 2 ^ 32 := by
  induction frames generalizing batches with
  | nil => exact absurd h (by simp [FramedBatches])
  | cons frame frames ih =>
    rcases h with ⟨-, -, rfl⟩ | ⟨-, batch, later, hdecode, hlater, rfl⟩
    · simp
    · intro batch' hmem
      rcases mem_cons.mp hmem with rfl | hmem
      · obtain ⟨hcount, hlength⟩ := entryCount_le_of_decode hdecode
        have hbounded := frame.bounded
        rw [maxBatchDecompressedBytes] at hbounded
        exact ⟨hcount, by omega⟩
      · exact ih hlater batch' hmem

structure Reading (Z : Compressor) (H : HashFn) (r : ManifestReader) (pending : List FileEntry)
    (raw : Bytes) (batches : List LoadedBatch) : Prop where
  unfinished : r.finished = false
  memory : readEntries r.entriesRemainingInBatch (r.currentDecompressed.drop r.currentCursor) =
    .ok (pending, raw)
  file : r.rest = batches.flatMap fun b => spillRecord b.batch
  loads : ∀ b ∈ batches, b.Loads Z
  small : ∀ b ∈ batches, b.batch.entryCount.toNat ≤ manifestBatchSize ∧
    b.batch.compressedPayload.length < 2 ^ 32
  count : r.totalEntriesRead + pending.length + (batches.flatMap entries).length ≤
    maxManifestEntries
  bytes : r.totalManifestBytes + (batches.map fun b => b.data.length).sum ≤ maxManifestBytes
  hash : H (r.hashed ++ raw ++ batches.flatMap LoadedBatch.raw) = r.expectedHash

variable {r : ManifestReader} {e : FileEntry} {pending : List FileEntry} {raw : Bytes}
  {batches : List LoadedBatch} {b : LoadedBatch}

theorem readEntries_cons {count : ℕ} {slice : Bytes}
    (h : readEntries count slice = .ok (e :: pending, raw)) :
    ∃ after raw', decodeFileEntry ⟨0, slice⟩ = .ok (e, after) ∧ count = count - 1 + 1 ∧
      readEntries (count - 1) (slice.drop after.pos) = .ok (pending, raw') ∧
      raw = slice.take after.pos ++ raw' := by
  cases count with
  | zero => simp [readEntries] at h
  | succ count =>
    rw [readEntries] at h
    split_ifs at h
    split at h
    next => simp at h
    next entry after hdecode =>
      split at h
      next => simp at h
      next entries raw' hrest =>
        obtain ⟨⟨rfl, rfl⟩, rfl⟩ := h
        exact ⟨after, raw', hdecode, rfl, hrest, rfl⟩

theorem readEntries_nil {count : ℕ} {slice : Bytes} (h : readEntries count slice = .ok ([], raw)) :
    count = 0 ∧ raw = [] := by
  cases count with
  | zero => simpa [readEntries] using h
  | succ count =>
    rw [readEntries] at h
    split_ifs at h
    split at h
    next => simp at h
    next =>
      split at h
      next => simp at h
      next => simp at h

def past (r : ManifestReader) (consumed : ℕ) : ManifestReader :=
  { r with
    hashed := r.hashed ++ (r.currentDecompressed.drop r.currentCursor).take consumed
    currentCursor := r.currentCursor + consumed
    entriesRemainingInBatch := r.entriesRemainingInBatch - 1
    totalEntriesRead := r.totalEntriesRead + 1 }

theorem Reading.nextEntry_cons (h : Reading Z H r (e :: pending) raw batches) :
    ∃ r' raw', r.nextEntry Z H = .ok (some e) r' ∧ Reading Z H r' pending raw' batches := by
  obtain ⟨after, raw', hdecode, hcount, hrest, rfl⟩ := readEntries_cons h.memory
  have hmore : r.entriesRemainingInBatch ≠ 0 := by omega
  have hlimit : ¬ maxManifestEntries ≤ r.totalEntriesRead := by
    have := h.count
    rw [length_cons] at this
    omega
  refine ⟨past r after.pos, raw', ?_, ?_⟩
  · simp only [nextEntry, h.unfinished, fill_pending hmore,
      decodeEntry, hlimit, hdecode, if_false, Bool.false_eq_true, past]
  · refine ⟨h.unfinished, ?_, h.file, h.loads, h.small, ?_, h.bytes, ?_⟩
    · rw [past, ← drop_drop]
      exact hrest
    · have := h.count
      rw [length_cons] at this
      dsimp only [past]
      omega
    · have := h.hash
      simpa [past] using this

theorem Reading.loadBatch (h : Reading Z H r [] raw (b :: batches)) :
    r.loadBatch Z = .ok () (loaded r (batches.flatMap fun b => spillRecord b.batch) b.data
      b.batch.entryCount.toNat) := by
  obtain ⟨hentries, hlength⟩ := h.small b mem_cons_self
  obtain ⟨hdata, -⟩ := h.loads b mem_cons_self
  have hfile := h.file
  obtain ⟨hcount, hlen, hbody⟩ := spillRecord_fields b.batch
    (batches.flatMap fun b => spillRecord b.batch)
  rw [mod_eq_of_lt hlength] at hlen
  have hbytes : ¬ maxManifestBytes < r.totalManifestBytes + b.data.length := by
    have := h.bytes
    rw [map_cons, sum_cons] at this
    omega
  unfold ManifestReader.loadBatch
  simp [hfile, hcount, hlen, hbody, not_lt.mpr hentries, hdata, hbytes, loaded]

theorem Reading.nextEntry_load (h : Reading Z H r [] raw (b :: batches)) :
    ∃ r', r.nextEntry Z H = r'.nextEntry Z H ∧ Reading Z H r' b.entries b.raw batches := by
  obtain ⟨hdone, rfl⟩ := readEntries_nil h.memory
  refine ⟨loaded r (batches.flatMap fun b => spillRecord b.batch) b.data b.batch.entryCount.toNat,
    ?_, ?_⟩
  · have hlen : ¬ r.rest.length < 16 := by
      rw [h.file]
      exact length_spillRecord_ge b.batch _
    simp [nextEntry, fill_of_load hdone hlen h.loadBatch, loaded, h.unfinished]
  · refine ⟨h.unfinished, ?_, rfl, fun b' hb' => h.loads b' (mem_cons_of_mem b hb'),
      fun b' hb' => h.small b' (mem_cons_of_mem b hb'), ?_, ?_, ?_⟩
    · exact (h.loads b mem_cons_self).2
    · have := h.count
      simp only [flatMap_cons, length_append] at this
      dsimp only [loaded]
      omega
    · have := h.bytes
      rw [map_cons, sum_cons] at this
      dsimp only [loaded]
      omega
    · have := h.hash
      simpa [loaded] using this

theorem Reading.nextEntry_end (h : Reading Z H r [] raw []) :
    ∃ r', r.nextEntry Z H = .ok none r' := by
  obtain ⟨hdone, rfl⟩ := readEntries_nil h.memory
  have hhash := h.hash
  simp only [append_nil, flatMap_nil] at hhash
  have hlen : r.rest.length < 16 := by simp [h.file]
  rw [nextEntry, h.unfinished, fill, if_neg (not_not.mpr hdone),
    dif_pos hlen]
  simp [checkHash, hhash]

theorem Reading.yields (h : Reading Z H r pending raw batches) :
    r.Yields Z H (pending ++ batches.flatMap entries) := by
  -- first the batches of the file, then the entries of the batch in memory
  induction batches generalizing r pending raw with
  | nil =>
    induction pending generalizing r raw with
    | nil => exact h.nextEntry_end
    | cons e pending ih =>
      obtain ⟨r', raw', hnext, h'⟩ := h.nextEntry_cons
      exact ⟨r', hnext, ih h'⟩
  | cons b batches ihb =>
    induction pending generalizing r raw with
    | nil =>
      obtain ⟨r', hnext, h'⟩ := h.nextEntry_load
      rw [yields_congr hnext]
      exact ihb h'
    | cons e pending ih =>
      obtain ⟨r', raw', hnext, h'⟩ := h.nextEntry_cons
      exact ⟨r', hnext, ih h'⟩

theorem yields_unique {entries entries' : List FileEntry} (h : r.Yields Z H entries)
    (h' : r.Yields Z H entries') : entries = entries' := by
  induction entries generalizing r entries' with
  | nil =>
    obtain ⟨r1, hr1⟩ := h
    cases entries' with
    | nil => rfl
    | cons e entries' =>
      obtain ⟨r2, hr2, -⟩ := h'
      simp [hr1] at hr2
  | cons e entries ih =>
    obtain ⟨r1, hr1, hrest⟩ := h
    cases entries' with
    | nil =>
      obtain ⟨r2, hr2⟩ := h'
      simp [hr1] at hr2
    | cons e' entries' =>
      obtain ⟨r2, hr2, hrest'⟩ := h'
      obtain ⟨rfl, rfl⟩ : e = e' ∧ r1 = r2 := by simpa [hr1] using hr2
      rw [ih hrest hrest']

/-! ## The receivers compared -/

theorem FramedBatches.unique {hash : Hash} {batches batches' : List ManifestBatch}
    (h : FramedBatches hash frames batches) (h' : FramedBatches hash frames batches') :
    batches = batches' := by
  induction frames generalizing batches batches' with
  | nil => exact absurd h (by simp [FramedBatches])
  | cons frame frames ih =>
    rcases h with ⟨hend, -, rfl⟩ | ⟨hbatch, batch, later, hdecode, hlater, rfl⟩
    · exact ((framedBatches_end hend).mp h').2.symm
    · obtain ⟨later', hlater', rfl⟩ := (framedBatches_batch hbatch hdecode).mp h'
      rw [ih hlater hlater']

variable {loaded loaded' : List LoadedBatch}

theorem loaded_unique (hbatches : loaded.map batch = loaded'.map batch)
    (h : ∀ b ∈ loaded, b.Loads Z) (h' : ∀ b ∈ loaded', b.Loads Z) : loaded = loaded' := by
  induction loaded generalizing loaded' with
  | nil => exact (map_eq_nil_iff.mp hbatches.symm).symm
  | cons b loaded ih =>
    obtain ⟨b', later, rfl, hb, hlater⟩ := map_eq_cons_iff.mp hbatches.symm
    obtain ⟨hdata, hread⟩ := h b mem_cons_self
    obtain ⟨hdata', hread'⟩ := h' b' mem_cons_self
    have hsame : b = b' := by
      cases b'
      subst hb
      obtain rfl := Except.ok.inj (hdata.symm.trans hdata')
      obtain ⟨rfl, rfl⟩ := Prod.mk.inj (Except.ok.inj (hread.symm.trans hread'))
      rfl
    rw [hsame, ih hlater.symm (fun x hx => h x (mem_cons_of_mem b hx))
      fun x hx => h' x (mem_cons_of_mem b' hx)]

theorem Carries.unique {begun begun' : ManifestBegin}
    (h : Carries Z frames begun loaded) (h' : Carries Z frames begun' loaded') :
    begun = begun' ∧ loaded = loaded' := by
  obtain ⟨frame, later, rfl, -, hbegin, hframed⟩ := h.framed
  obtain ⟨frame', later', hframes, -, hbegin', hframed'⟩ := h'.framed
  obtain ⟨rfl, rfl⟩ := List.cons.inj hframes
  obtain rfl := Except.ok.inj (hbegin.symm.trans hbegin')
  exact ⟨rfl, loaded_unique (hframed.unique hframed') h.loads h'.loads⟩

theorem spillYields_iff {entries : List FileEntry} :
    SpillYields Z H frames entries ↔ ∃ begun loaded, Carries Z frames begun loaded ∧
      (loaded.flatMap LoadedBatch.entries).length ≤ maxManifestEntries ∧
      H (loaded.flatMap LoadedBatch.raw) = begun.manifestHash ∧
      entries = loaded.flatMap LoadedBatch.entries := by
  -- the spill file of a manifest is opened and read to its end
  have hread : ∀ begun loaded, Carries Z frames begun loaded →
      (loaded.flatMap LoadedBatch.entries).length ≤ maxManifestEntries →
      H (loaded.flatMap raw) = begun.manifestHash →
      ∃ r, openSpill
          (spillMagic ++ [spillVersion] ++ loaded.flatMap fun b => spillRecord b.batch)
          begun.manifestHash = .ok r ∧ r.Yields Z H (loaded.flatMap LoadedBatch.entries) := by
    intro begun loaded hcarries hcount hhash
    obtain ⟨frame, later, -, -, -, hframed⟩ := hcarries.framed
    have hsmall := small_of_framedBatches hframed
    refine ⟨⟨loaded.flatMap fun b => spillRecord b.batch, begun.manifestHash, [], [], 0, 0, 0, 0,
      false⟩, by simp [openSpill, spillMagic], ?_⟩
    have hreading : Reading Z H ⟨loaded.flatMap fun b => spillRecord b.batch, begun.manifestHash,
        [], [], 0, 0, 0, 0, false⟩ [] [] loaded :=
      ⟨rfl, rfl, rfl, hcarries.loads,
        fun b hb => hsmall b.batch (mem_map_of_mem hb), by simpa using hcount,
        by simpa using hcarries.bytes, by simpa using hhash⟩
    exact hreading.yields
  constructor
  · rintro ⟨begun, ended, spill, r, hrecv, hopen, hyields⟩
    obtain ⟨loaded, hcarries, hcount, hhash, -, rfl⟩ :=
      recvStreamingManifestToSpill_eq_ok_iff.mp hrecv
    obtain ⟨r', hopen', hyields'⟩ := hread begun loaded hcarries hcount hhash
    obtain rfl := Except.ok.inj (hopen.symm.trans hopen')
    exact ⟨begun, loaded, hcarries, hcount, hhash, yields_unique hyields hyields'⟩
  · rintro ⟨begun, loaded, hcarries, hcount, hhash, rfl⟩
    obtain ⟨r, hopen, hyields⟩ := hread begun loaded hcarries hcount hhash
    exact ⟨begun, _, _, r, recvStreamingManifestToSpill_eq_ok_iff.mpr
      ⟨loaded, hcarries, hcount, hhash, rfl, rfl⟩, hopen, hyields⟩

theorem get?_insertAll (entries : List FileEntry) (path : String) :
    (insertAll H .empty entries).get? path =
      (entries.reverse.find? fun e => e.path.str = path).map (ofFileEntry H) := by
  rw [insertAll, get?_foldl_insert, get?_empty, Option.or_none]

theorem get?_insertAll_iff (entries : List FileEntry) :
    (∀ path scanned, (insertAll H .empty entries).get? path = some scanned ↔
      ∃ e ∈ entries, e.path.str = path ∧ ofFileEntry H e = scanned) ↔
    ∀ e ∈ entries, ∀ e' ∈ entries, e.path.str = e'.path.str →
      ofFileEntry H e = ofFileEntry H e' := by
  constructor
  · intro h e he e' he' hpath
    have hget := (h e.path.str _).mpr ⟨e, he, rfl, rfl⟩
    have hget' := (h e.path.str _).mpr ⟨e', he', hpath.symm, rfl⟩
    exact Option.some.inj (hget.symm.trans hget')
  · intro h path scanned
    rw [get?_insertAll]
    constructor
    · intro hget
      obtain ⟨e, hfind, hscanned⟩ := Option.map_eq_some_iff.mp hget
      have hmem := mem_reverse.mp (List.mem_of_find?_eq_some hfind)
      exact ⟨e, hmem, by simpa using List.find?_some hfind, hscanned⟩
    · rintro ⟨e, he, hpath, rfl⟩
      cases hfind : entries.reverse.find? fun e => e.path.str = path with
      | none =>
        have := List.find?_eq_none.mp hfind e (mem_reverse.mpr he)
        simp [hpath] at this
      | some e0 =>
        have hmem := mem_reverse.mp (List.mem_of_find?_eq_some hfind)
        have hpath0 : e0.path.str = path := by simpa using List.find?_some hfind
        rw [Option.map_some, h e0 hmem e he (hpath0.trans hpath.symm)]

/-- **Main theorem.** The receivers agree on frames exactly if what the frames carry is genuine. -/
theorem receiversAgree_iff_genuine (Z : Compressor) (H : HashFn) (frames : List ReceivedFrame) :
    ReceiversAgree Z H frames ↔ Genuine Z H frames := by
  constructor
  · intro h begun loaded hcarries
    have hkept := (recvDirectoryManifest_eq_ok_iff (H := H)).mpr ⟨begun, loaded, hcarries, rfl⟩
    obtain ⟨entries, hspill⟩ := h.accept.mp ⟨_, hkept⟩
    obtain ⟨begun', loaded', hcarries', hcount, hhash, rfl⟩ := spillYields_iff.mp hspill
    obtain ⟨rfl, rfl⟩ := hcarries.unique hcarries'
    exact ⟨hcount, hhash, (get?_insertAll_iff _).mp (h.entries _ _ hkept hspill)⟩
  · intro h
    refine ⟨⟨?_, ?_⟩, ?_⟩
    · rintro ⟨inventory, hkept⟩
      obtain ⟨begun, loaded, hcarries, -⟩ := recvDirectoryManifest_eq_ok_iff.mp hkept
      obtain ⟨hcount, hhash, -⟩ := h begun loaded hcarries
      exact ⟨_, spillYields_iff.mpr ⟨begun, loaded, hcarries, hcount, hhash, rfl⟩⟩
    · rintro ⟨entries, hspill⟩
      obtain ⟨begun, loaded, hcarries, -⟩ := spillYields_iff.mp hspill
      exact ⟨_, recvDirectoryManifest_eq_ok_iff.mpr ⟨begun, loaded, hcarries, rfl⟩⟩
    · intro inventory entries hkept hspill
      obtain ⟨begun, loaded, hcarries, rfl⟩ := recvDirectoryManifest_eq_ok_iff.mp hkept
      obtain ⟨begun', loaded', hcarries', -, -, rfl⟩ := spillYields_iff.mp hspill
      obtain ⟨rfl, rfl⟩ := hcarries.unique hcarries'
      obtain ⟨-, -, hsame⟩ := h begun loaded hcarries
      exact (get?_insertAll_iff _).mpr hsame

def constantHash : HashFn := fun _ => .repeated 0

def forgedManifest : List ReceivedFrame :=
  [⟨manifestBeginType, u64Field 0 ++ u64Field 0 ++ u64Field 262144 ++ u64Field 1048576 ++
      u64Field 4194304 ++ (Hash.repeated 1).bytes, by decide⟩,
    ⟨manifestEndType, (Hash.repeated 1).bytes, by decide⟩]

/-- It is received into memory and refused by the receiver that writes a spill file. -/
theorem not_receiversAgree_forgedManifest :
    (∃ inventory, recvDirectoryManifest idleCompressor constantHash forgedManifest =
      .ok inventory) ∧
    (∃ e, recvStreamingManifestToSpill idleCompressor constantHash forgedManifest =
      .error e) ∧
    ¬ ReceiversAgree idleCompressor constantHash forgedManifest := by
  have hkept : (recvDirectoryManifest idleCompressor constantHash forgedManifest).isOk =
      true := by decide
  have hrefused : (recvStreamingManifestToSpill idleCompressor constantHash
      forgedManifest).isOk = false := by decide
  cases hmemory : recvDirectoryManifest idleCompressor constantHash forgedManifest with
  | error e => simp [hmemory, Except.toBool] at hkept
  | ok inventory =>
    cases hspill : recvStreamingManifestToSpill idleCompressor constantHash
        forgedManifest with
    | ok x => simp [hspill, Except.toBool] at hrefused
    | error e =>
      refine ⟨⟨inventory, rfl⟩, ⟨e, rfl⟩, fun h => ?_⟩
      obtain ⟨entries, begun, ended, spill, r, hrecv, -⟩ := h.accept.mp ⟨inventory, hmemory⟩
      simp [hspill] at hrecv

end Velcrux.Sync
