import Velcrux.Manifest.Proofs.AcceptedProofs
import Velcrux.Manifest.Proofs.WriterProofs

/-!
# Proofs: what a manifest reader yields

The reader of a spill file hands out the entries of its batches in canonical form, up to the first
batch that is larger than it takes into memory.
-/

namespace Velcrux.Manifest

open Decoding LittleEndian List ManifestReader UInt32
open Protocol (Compressor)
open Wire

variable {Z : Compressor} {H : HashFn}
variable {out data : Bytes} {reads : List Bytes} {r' : ManifestReader}

theorem drain_fits (hne : ∀ p ∈ reads, p ≠ [])
    (hfits : (out ++ reads.flatten).length ≤ maxBatchDecompressedBytes) :
    drain out reads true = .ok (out ++ reads.flatten) := by
  induction reads generalizing out with
  | nil => rw [drain, flatten_nil, append_nil]
  | cons p reads ih =>
    rw [flatten_cons, ← append_assoc] at hfits ⊢
    have hroom : ¬ maxBatchDecompressedBytes < out.length + p.length := by
      rw [length_append, length_append] at hfits
      omega
    rw [drain, if_neg (hne p (mem_cons_self ..)), if_neg hroom]
    exact ih (fun q hq => hne q (mem_cons_of_mem p hq)) hfits

theorem drain_exceeds (hne : ∀ p ∈ reads, p ≠ []) (hout : out.length ≤ maxBatchDecompressedBytes)
    (hexceeds : maxBatchDecompressedBytes < (out ++ reads.flatten).length) :
    ∃ e, drain out reads true = .error e := by
  induction reads generalizing out with
  | nil =>
    rw [flatten_nil, append_nil] at hexceeds
    omega
  | cons p reads ih =>
    rw [flatten_cons, ← append_assoc] at hexceeds
    rw [drain, if_neg (hne p (mem_cons_self ..))]
    by_cases hroom : maxBatchDecompressedBytes < out.length + p.length
    · exact ⟨_, if_pos hroom⟩
    · rw [if_neg hroom]
      refine ih (fun q hq => hne q (mem_cons_of_mem p hq)) ?_ hexceeds
      rw [length_append]
      omega

theorem drain_broken (hne : [] ∉ reads) : ∃ e, drain out reads false = .error e := by
  induction reads generalizing out with
  | nil => exact ⟨_, rfl⟩
  | cons p reads ih =>
    rw [mem_cons, not_or] at hne
    rw [drain, if_neg (Ne.symm hne.1)]
    by_cases hroom : maxBatchDecompressedBytes < out.length + p.length
    · exact ⟨_, if_pos hroom⟩
    · rw [if_neg hroom]
      exact ih hne.2

theorem decompressBatch_fits {z : Bytes} (hz : Z.encodeAll data 3 = some z)
    (hfits : data.length ≤ maxBatchDecompressedBytes) : decompressBatch Z z = .ok data := by
  obtain ⟨-, reads, hdec, hne, rfl⟩ := Z.decoder_encodeAll hz
  rw [decompressBatch, hdec]
  exact drain_fits hne hfits

theorem decompressBatch_exceeds {z : Bytes} (hz : Z.encodeAll data 3 = some z)
    (hexceeds : maxBatchDecompressedBytes < data.length) : ∃ e, decompressBatch Z z = .error e := by
  obtain ⟨-, reads, hdec, hne, rfl⟩ := Z.decoder_encodeAll hz
  rw [decompressBatch, hdec]
  exact drain_exceeds hne (Nat.zero_le _) hexceeds

theorem decompressBatch_cut (hZ : SoundFrames Z) {z : Bytes}
    (hz : Z.encodeAll data 3 = some z) {n : ℕ} (hn : n < z.length) :
    (∃ e, decompressBatch Z (z.take n) = .error e) ∨ decompressBatch Z (z.take n) = .ok [] := by
  unfold decompressBatch
  cases hdec : Z.decoder (z.take n) with
  | none => exact .inl ⟨_, rfl⟩
  | some o =>
    obtain ⟨reads, clean⟩ := o
    rcases hZ.cut hz n hn hdec with ⟨rfl, hne⟩ | rfl
    · exact .inl (drain_broken hne)
    · cases clean
      · exact .inl ⟨_, rfl⟩
      · exact .inr rfl

/-! ## Loading a batch -/

theorem spillRecord_fields (batch : ManifestBatch) (rest : Bytes) :
    decodeLE (((spillRecord batch ++ rest).drop 8).take 4) = batch.entryCount.toNat ∧
    decodeLE (((spillRecord batch ++ rest).drop 12).take 4) =
      batch.compressedPayload.length % 2 ^ 32 ∧
    (spillRecord batch ++ rest).drop 16 = batch.compressedPayload ++ rest := by
  have hindex : (u64Field batch.batchIndex).length = 8 := length_encodeLE ..
  have hcount : (u32Field batch.entryCount).length = 4 := length_encodeLE ..
  have hlen : (u32Field (ofNat batch.compressedPayload.length)).length = 4 :=
    length_encodeLE ..
  have h8 : (spillRecord batch ++ rest).drop 8 = u32Field batch.entryCount ++
      (u32Field (ofNat batch.compressedPayload.length) ++
        (batch.compressedPayload ++ rest)) := by
    exact drop_left' hindex
  have h12 : (spillRecord batch ++ rest).drop 12 =
      u32Field (ofNat batch.compressedPayload.length) ++
        (batch.compressedPayload ++ rest) := by
    exact drop_left' hcount
  refine ⟨?_, ?_, ?_⟩
  · rw [h8, take_left' hcount]
    exact decodeLE_encodeLE_of_lt batch.entryCount.toNat_lt
  · rw [h12, take_left' hlen]
    exact decodeLE_encodeLE_of_lt (toNat_lt _)
  · exact drop_left' hlen

variable {r : ManifestReader} {i : ℕ} {b : List FileEntry} {z rest : Bytes}

def loaded (r : ManifestReader) (rest data : Bytes) (count : ℕ) : ManifestReader :=
  { r with
    rest
    totalManifestBytes := r.totalManifestBytes + data.length
    currentDecompressed := data
    currentCursor := 0
    entriesRemainingInBatch := count }

theorem loadBatch_record (hrest : r.rest = spillRecord ⟨UInt64.ofNat i, ofNat b.length, z⟩ ++ rest)
    (hb : b.length ≤ manifestBatchSize) :
    (∀ e, decompressBatch Z (z.take (z.length % 2 ^ 32)) = .error e →
      ∃ r', r.loadBatch Z = .error e r') ∧
    ∀ data, decompressBatch Z (z.take (z.length % 2 ^ 32)) = .ok data →
      r.totalManifestBytes + data.length ≤ maxManifestBytes →
      r.loadBatch Z = .ok () (loaded r ((z ++ rest).drop (z.length % 2 ^ 32)) data b.length) := by
  obtain ⟨hcount, hlen, hbody⟩ :=
    spillRecord_fields ⟨UInt64.ofNat i, ofNat b.length, z⟩ rest
  have hsmall : (ofNat b.length).toNat = b.length := by
    refine toNat_ofNat_of_lt' (lt_of_le_of_lt hb ?_)
    decide
  have hmod : z.length % 2 ^ 32 ≤ z.length := Nat.mod_le ..
  have hroom : ¬ (z ++ rest).length < z.length % 2 ^ 32 := by
    rw [length_append]
    omega
  have htake : (z ++ rest).take (z.length % 2 ^ 32) = z.take (z.length % 2 ^ 32) :=
    take_append_of_le_length hmod
  unfold loadBatch
  simp only [hrest, hcount, hlen, hbody, hsmall, if_neg (not_lt.2 hb), if_neg hroom, htake]
  constructor
  · intro e he
    rw [he]
    exact ⟨_, rfl⟩
  · intro data hdata hbytes
    rw [hdata]
    simp only [if_neg (not_lt.2 hbytes)]
    rfl

theorem length_spillRecord_ge (batch : ManifestBatch) (rest : Bytes) :
    ¬ (spillRecord batch ++ rest).length < 16 := by
  simp only [spillRecord, u64Field, u32Field, length_append, length_encodeLE]
  omega

theorem fill_pending (h : r.entriesRemainingInBatch ≠ 0) : r.fill Z H = .ok true r := by
  rw [fill, if_pos h]

theorem fill_of_load (hdone : r.entriesRemainingInBatch = 0) (hlen : ¬ r.rest.length < 16)
    (hload : r.loadBatch Z = .ok () r') : r.fill Z H = r'.fill Z H := by
  rw [fill, if_neg (not_not.2 hdone), dif_neg hlen]
  split
  · rename_i e r'' herr
    rw [hload] at herr
    cases herr
  · rename_i r'' hok
    rw [hload] at hok
    cases hok
    rfl

theorem nextEntry_of_load (hopen : r.finished = false)
    (hdone : r.entriesRemainingInBatch = 0) (hlen : ¬ r.rest.length < 16)
    (hload : r.loadBatch Z = .ok () r') (hmore : r'.entriesRemainingInBatch ≠ 0) :
    r.nextEntry Z H = r'.decodeEntry := by
  simp [nextEntry, hopen, fill_of_load hdone hlen hload, fill_pending hmore]

theorem nextEntry_of_load_error {e : VelcruxError}
    (hopen : r.finished = false) (hdone : r.entriesRemainingInBatch = 0)
    (hlen : ¬ r.rest.length < 16) (hload : r.loadBatch Z = .error e r') :
    r.nextEntry Z H = .error e r' := by
  have hfill : r.fill Z H = .error e r' := by
    rw [fill, if_neg (not_not.2 hdone), dif_neg hlen]
    split
    · rename_i e' r'' herr
      rw [hload] at herr
      cases herr
      rfl
    · rename_i r'' hok
      rw [hload] at hok
      cases hok
  simp [nextEntry, hopen, hfill]

/-! ## A reader in the middle of a file -/

def advanced (r : ManifestReader) (e : FileEntry) : ManifestReader :=
  { r with
    hashed := r.hashed ++ encodeFileEntry e
    currentCursor := r.currentCursor + (encodeFileEntry e).length
    entriesRemainingInBatch := r.entriesRemainingInBatch - 1
    totalEntriesRead := r.totalEntriesRead + 1 }

structure Standing (Z : Compressor) (H : HashFn) (r : ManifestReader) (pending : List FileEntry)
    (bs : List (List FileEntry)) : Prop where
  unfinished : r.finished = false
  remaining : r.entriesRemainingInBatch = pending.length
  slice : r.currentDecompressed.drop r.currentCursor = pending.flatMap encodeFileEntry
  spilled : ∃ i, Spilled Z i bs r.rest
  batch_ok : ∀ b ∈ bs, b ≠ [] ∧ b.length ≤ manifestBatchSize
  hash : r.expectedHash = H (r.hashed ++ (pending ++ bs.flatten).flatMap encodeFileEntry)
  count_le : r.totalEntriesRead + (pending ++ bs.flatten).length ≤ maxManifestEntries
  bytes_le : r.totalManifestBytes + (bs.flatten.flatMap encodeFileEntry).length ≤ maxManifestBytes
  slice_lt : (pending.flatMap encodeFileEntry).length < 2 ^ 64

variable {pending : List FileEntry} {bs : List (List FileEntry)} {e : FileEntry}

theorem Standing.more (h : Standing Z H r (e :: pending) bs) :
    r.entriesRemainingInBatch ≠ 0 ∧ ¬ maxManifestEntries ≤ r.totalEntriesRead := by
  have hle := h.count_le
  rw [cons_append, length_cons] at hle
  rw [h.remaining, length_cons]
  omega

theorem Standing.nextEntry_cons (h : Standing Z H r (e :: pending) bs) (hchecked : e.Checked) :
    r.nextEntry Z H = .ok (some e.canonical) (advanced r e) := by
  obtain ⟨hmore, hcount⟩ := h.more
  have hlt := h.slice_lt
  have hslice := h.slice
  rw [flatMap_cons] at hlt hslice
  have hdecode := decodes_fileEntry hchecked 0 (pending.flatMap encodeFileEntry) (by
    rw [length_append] at hlt
    omega)
  simp [nextEntry, h.unfinished, fill_pending hmore, decodeEntry, hcount,
    hslice, hdecode, advanced]

theorem Standing.nextEntry_fails (h : Standing Z H r (e :: pending) bs) (hchecked : ¬ e.Checked) :
    ∃ err r', r.nextEntry Z H = .error err r' := by
  obtain ⟨hmore, hcount⟩ := h.more
  have hlt := h.slice_lt
  have hslice := h.slice
  cases hdecode : decodeFileEntry ⟨0, encodeFileEntry e ++ pending.flatMap encodeFileEntry⟩ with
  | ok x =>
    exact absurd (checked_of_decodeFileEntry hlt hdecode) hchecked
  | error err =>
    simp [nextEntry, h.unfinished, fill_pending hmore, decodeEntry,
      hcount, hslice, hdecode]

theorem Standing.tail (h : Standing Z H r (e :: pending) bs) : Standing Z H (advanced r e) pending bs := by
  have hslice := h.slice
  have hlt := h.slice_lt
  have hhash := h.hash
  have hcount := h.count_le
  rw [flatMap_cons] at hslice hlt
  rw [cons_append, flatMap_cons, ← append_assoc] at hhash
  rw [cons_append, length_cons] at hcount
  refine ⟨h.unfinished, ?_, ?_, h.spilled, h.batch_ok, hhash, ?_, h.bytes_le, ?_⟩
  · rw [advanced, h.remaining, length_cons, Nat.add_sub_cancel]
  · rw [advanced, ← drop_drop, hslice, drop_left]
  · have hread : (advanced r e).totalEntriesRead = r.totalEntriesRead + 1 := rfl
    omega
  · rw [length_append] at hlt
    omega

theorem Standing.has_header (h : Standing Z H r [] (b :: bs)) : ¬ r.rest.length < 16 := by
  obtain ⟨i, hspilled⟩ := h.spilled
  obtain ⟨z, rest, -, -, hrest⟩ := hspilled.cons_inv
  rw [hrest]
  exact length_spillRecord_ge _ _

theorem Standing.load (hZ : SoundFrames Z) (h : Standing Z H r [] (b :: bs))
    (hfits : (b.flatMap encodeFileEntry).length ≤ maxBatchDecompressedBytes) :
    ∃ r', Standing Z H r' b bs ∧ r.nextEntry Z H = r'.nextEntry Z H := by
  obtain ⟨i, hspilled⟩ := h.spilled
  obtain ⟨z, rest, hz, hlater, hrest⟩ := hspilled.cons_inv
  obtain ⟨hne, hsize⟩ := h.batch_ok b (mem_cons_self ..)
  have hbytes := h.bytes_le
  rw [flatten_cons, flatMap_append, length_append] at hbytes
  -- the compressed length fits into 32 bits, so the whole frame is read
  have hlen : z.length % 2 ^ 32 = z.length := by
    have hbound := hZ.bound hz
    rw [maxBatchDecompressedBytes] at hfits
    omega
  have hdata : decompressBatch Z (z.take (z.length % 2 ^ 32)) = .ok (b.flatMap encodeFileEntry) := by
    rw [hlen, take_length]
    exact decompressBatch_fits hz hfits
  have hload := (loadBatch_record hrest hsize).2 _ hdata (by omega)
  rw [hlen] at hload
  have hpos : b.length ≠ 0 := by
    intro hzero
    exact hne (length_eq_zero_iff.1 hzero)
  have hcount := h.count_le
  have hhash := h.hash
  refine ⟨loaded r rest (b.flatMap encodeFileEntry) b.length,
    ⟨h.unfinished, rfl, rfl, ⟨_, hlater⟩, ?_, hhash, hcount, ?_, ?_⟩, ?_⟩
  · intro c hc
    exact h.batch_ok c (mem_cons_of_mem b hc)
  · exact le_of_eq_of_le (add_assoc ..) hbytes
  · rw [maxBatchDecompressedBytes] at hfits
    omega
  · rw [nextEntry_of_load h.unfinished h.remaining h.has_header hload hpos]
    simp [nextEntry, loaded, h.unfinished, fill_pending, hpos]

theorem decodeEntry_nil (h : r.currentDecompressed = []) : ∃ e r', r.decodeEntry = .error e r' := by
  unfold decodeEntry
  by_cases hcount : maxManifestEntries ≤ r.totalEntriesRead
  · exact ⟨_, _, if_pos hcount⟩
  · rw [if_neg hcount]
    simp only [h, drop_nil]
    exact ⟨_, _, rfl⟩

theorem Standing.load_fails (hZ : SoundFrames Z) (h : Standing Z H r [] (b :: bs))
    (hexceeds : maxBatchDecompressedBytes < (b.flatMap encodeFileEntry).length) :
    ∃ e r', r.nextEntry Z H = .error e r' := by
  obtain ⟨i, hspilled⟩ := h.spilled
  obtain ⟨z, rest, hz, hlater, hrest⟩ := hspilled.cons_inv
  obtain ⟨hne, hsize⟩ := h.batch_ok b (mem_cons_self ..)
  have hpos : b.length ≠ 0 := by
    intro hzero
    exact hne (length_eq_zero_iff.1 hzero)
  have hfails : (∃ e, decompressBatch Z (z.take (z.length % 2 ^ 32)) = .error e) ∨
      decompressBatch Z (z.take (z.length % 2 ^ 32)) = .ok [] := by
    by_cases hshort : z.length < 2 ^ 32
    · rw [Nat.mod_eq_of_lt hshort, take_length]
      exact .inl (decompressBatch_exceeds hz hexceeds)
    · exact decompressBatch_cut hZ hz (by omega)
  rcases hfails with ⟨e, he⟩ | hempty
  · obtain ⟨r', hload⟩ := (loadBatch_record hrest hsize).1 e he
    exact ⟨e, r', nextEntry_of_load_error h.unfinished h.remaining h.has_header hload⟩
  · -- the 32-bit length has cut the frame, and there is nothing to decode
    have hbytes := h.bytes_le
    have hload := (loadBatch_record hrest hsize).2 [] hempty (by
      rw [length_nil]
      omega)
    rw [nextEntry_of_load h.unfinished h.remaining h.has_header hload hpos]
    exact decodeEntry_nil rfl

theorem Standing.nextEntry_end (h : Standing Z H r [] []) : ∃ r', r.nextEntry Z H = .ok none r' := by
  obtain ⟨i, hspilled⟩ := h.spilled
  have hrest : r.rest = [] := by
    generalize r.rest = file at hspilled
    cases hspilled
    rfl
  have hhash : H r.hashed = r.expectedHash := by
    rw [h.hash]
    simp
  have hdone : r.entriesRemainingInBatch = 0 := h.remaining
  have hfill : r.fill Z H = .ok false { r with rest := [], finished := true } := by
    rw [fill, if_neg (not_not.2 hdone), dif_pos (by rw [hrest]; decide)]
    simp [checkHash, hhash]
  simp [nextEntry, h.unfinished, hfill]

/-! ## The run of the reader -/

theorem yields_congr (h : r.nextEntry Z H = r'.nextEntry Z H)
    (entries : List FileEntry) : r.Yields Z H entries ↔ r'.Yields Z H entries := by
  cases entries <;> simp only [ManifestReader.Yields, h]

theorem yields_cons_iff {a : FileEntry}
    (h : r.nextEntry Z H = .ok (some a) r') (e : FileEntry) (entries : List FileEntry) :
    r.Yields Z H (e :: entries) ↔ a = e ∧ r'.Yields Z H entries := by
  rw [ManifestReader.Yields, h]
  constructor
  · rintro ⟨r'', heq, hlater⟩
    cases heq
    exact ⟨rfl, hlater⟩
  · rintro ⟨rfl, hlater⟩
    exact ⟨r', rfl, hlater⟩

theorem not_yields_of_error {e : VelcruxError}
    (h : r.nextEntry Z H = .error e r') (entries : List FileEntry) : ¬ r.Yields Z H entries := by
  cases entries <;> simp [ManifestReader.Yields, h]

def GetsThrough (pending : List FileEntry) (bs : List (List FileEntry)) (entries : List FileEntry) :
    Prop :=
  (∀ e ∈ pending ++ bs.flatten, e.Checked) ∧
    (∀ b ∈ bs, (b.flatMap encodeFileEntry).length ≤ maxBatchDecompressedBytes) ∧
    entries = (pending ++ bs.flatten).map FileEntry.canonical

theorem Standing.yields_cons_iff (h : Standing Z H r (e :: pending) bs)
    (ih : ∀ r' entries, Standing Z H r' pending bs →
      (r'.Yields Z H entries ↔ GetsThrough pending bs entries)) (entries : List FileEntry) :
    r.Yields Z H entries ↔ GetsThrough (e :: pending) bs entries := by
  rw [GetsThrough, cons_append, forall_mem_cons, map_cons]
  by_cases hchecked : e.Checked
  · have hnext := h.nextEntry_cons hchecked
    cases entries with
    | nil => simp [ManifestReader.Yields, hnext]
    | cons e' entries =>
      rw [Manifest.yields_cons_iff hnext, ih _ _ h.tail, List.cons.injEq]
      constructor
      · rintro ⟨rfl, hall, hfits, rfl⟩
        exact ⟨⟨hchecked, hall⟩, hfits, rfl, rfl⟩
      · rintro ⟨⟨-, hall⟩, hfits, rfl, rfl⟩
        exact ⟨rfl, hall, hfits, rfl⟩
  · obtain ⟨err, r', herr⟩ := h.nextEntry_fails hchecked
    refine iff_of_false (not_yields_of_error herr _) ?_
    rintro ⟨⟨hfirst, -⟩, -⟩
    exact hchecked hfirst

/-- The reader gets through what is left: first through the current batch, then by induction on the
batches in the file. -/
theorem Standing.yields_iff (hZ : SoundFrames Z) (h : Standing Z H r pending bs)
    (entries : List FileEntry) : r.Yields Z H entries ↔ GetsThrough pending bs entries := by
  induction bs generalizing r pending entries with
  | nil =>
    induction pending generalizing r entries with
    | nil =>
      obtain ⟨r', hend⟩ := h.nextEntry_end
      cases entries <;> simp [ManifestReader.Yields, hend, GetsThrough]
    | cons e pending ih => exact h.yields_cons_iff (fun r' entries h' => ih h' entries) entries
  | cons b bs ihb =>
    induction pending generalizing r entries with
    | nil =>
      by_cases hfits : (b.flatMap encodeFileEntry).length ≤ maxBatchDecompressedBytes
      · obtain ⟨r', hr', hnext⟩ := h.load hZ hfits
        have hlater := ihb hr' entries
        rw [yields_congr hnext, hlater, GetsThrough, GetsThrough, nil_append,
          flatten_cons, forall_mem_cons, and_iff_right hfits]
      · obtain ⟨e, r', herr⟩ := h.load_fails hZ (not_le.1 hfits)
        refine iff_of_false (not_yields_of_error herr _) ?_
        rintro ⟨-, hall, -⟩
        exact hfits (hall b (mem_cons_self ..))
    | cons e pending ih => exact h.yields_cons_iff (fun r' entries h' => ih h' entries) entries

/-- The reader yields what is left if every entry is in canonical form and every batch fits. -/
theorem Standing.yields_left_iff (hZ : SoundFrames Z) (h : Standing Z H r pending bs)
    (hchecked : ∀ e ∈ pending ++ bs.flatten, e.Checked) :
    r.Yields Z H (pending ++ bs.flatten) ↔ (∀ e ∈ pending ++ bs.flatten, e.Canonical) ∧
      ∀ b ∈ bs, (b.flatMap encodeFileEntry).length ≤ maxBatchDecompressedBytes := by
  have hcanonical : pending ++ bs.flatten = (pending ++ bs.flatten).map FileEntry.canonical ↔
      ∀ e ∈ pending ++ bs.flatten, e.Canonical := by
    conv_lhs => lhs; rw [← map_id (pending ++ bs.flatten)]
    rw [map_inj_left]
    exact forall₂_congr fun e _ => by rw [id, eq_comm, canonical_eq_iff]
  rw [h.yields_iff hZ, GetsThrough, hcanonical]
  constructor
  · rintro ⟨-, hfits, hall⟩
    exact ⟨hall, hfits⟩
  · rintro ⟨hall, hfits⟩
    exact ⟨hchecked, hfits, hall⟩

end Velcrux.Manifest
