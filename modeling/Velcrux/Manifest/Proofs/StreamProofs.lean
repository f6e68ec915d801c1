import Velcrux.Manifest.Proofs.ReaderProofs
import Velcrux.Wire.Proofs.PayloadProofs

/-!
# Proofs: which manifests are read back

The writer bounds the number of entries and the bytes of the whole manifest. The reader also bounds
the bytes of each batch, and the summed sizes of the files by the limit for the bytes of the
manifest.
-/

namespace Velcrux.Manifest

open Chunking (ChunkParams)
open Decoding LittleEndian Varint List ManifestWriter UInt64 ManifestReader Hash
open Protocol (Compressor EntropyTier)
open Wire

variable {Z : Compressor} {H : HashFn}
variable {params : ChunkParams} {entries : List FileEntry} {written : ManifestBegin × ManifestEnd × Bytes}

theorem manifestBegin_encode (m : ManifestBegin) : ∃ buf, m.encode = .ok buf ∧ buf.length = 72 := by
  have hlen : ([u64Field m.fileCount, u64Field m.totalBytes,
      u64Field (ofNat m.chunkerParams.min), u64Field (ofNat m.chunkerParams.target),
      u64Field (ofNat m.chunkerParams.max), m.manifestHash.bytes] : List Bytes).flatten.length
      = 72 := by
    simp [u64Field, m.manifestHash.length_eq, chunkHashBytes]
  refine ⟨_, ?_, hlen⟩
  rw [ManifestBegin.encode, payload, if_neg (by rw [hlen]; decide)]

theorem fails_manifestBegin {m : ManifestBegin} {buf : Bytes}
    (hcount : m.fileCount.toNat ≤ maxManifestEntries) (htotal : maxManifestBytes < m.totalBytes.toNat)
    (h : m.encode = .ok buf) : Fails ManifestBegin.decode (.invalidManifest
      s!"total bytes {m.totalBytes} exceeds MAX_MANIFEST_BYTES {maxManifestBytes}") buf := by
  obtain ⟨rfl, -⟩ := payload_ok h
  refine .need (by simp [u64Field, m.manifestHash.length_eq, chunkHashBytes]) ?_
  refine (decodes_u64 _).bind_fails ?_
  have hchecked := decodes_refuse (not_lt.2 hcount) (ProtocolError.invalidManifest
    s!"file count {m.fileCount} exceeds MAX_MANIFEST_ENTRIES {maxManifestEntries}")
  refine hchecked.bind_fails ?_
  refine (decodes_u64 _).bind_fails ?_
  exact fails_refuse htotal _ _ _

/-- The opening message survives the wire if the summed sizes are within the limit. -/
theorem manifestBegin_comesBack_iff {m : ManifestBegin}
    (hcount : m.fileCount.toNat ≤ maxManifestEntries) :
    (∃ buf, m.encode = .ok buf ∧ ManifestBegin.decode.run buf = .ok m) ↔
      m.totalBytes.toNat ≤ maxManifestBytes := by
  obtain ⟨buf, hbuf, hlen⟩ := manifestBegin_encode m
  have hlt : buf.length < 2 ^ 64 := by omega
  constructor
  · rintro ⟨buf', hbuf', hdecode⟩
    by_contra hexceeds
    have herr := (fails_manifestBegin hcount (not_le.1 hexceeds) hbuf).run hlt []
    rw [append_nil] at herr
    rw [hbuf] at hbuf'
    cases hbuf'
    rw [herr] at hdecode
    cases hdecode
  · intro htotal
    have hok := (decodes_manifestBegin hcount htotal hbuf).run hlt []
    rw [append_nil] at hok
    exact ⟨buf, hbuf, hok⟩

theorem finished_writeManifest (hw : writeManifest Z H params entries = .ok written) :
    Finished Z H (.new params) entries written :=
  finished_of_ok (Nat.zero_le _) (Nat.zero_le _) hw

theorem Finished.count_le (h : Finished Z H (.new params) entries written) :
    written.1.fileCount.toNat ≤ maxManifestEntries := by
  have hle := h.entries_le
  have hlt : maxManifestEntries < 2 ^ 64 := by decide
  rw [h.count, toNat_ofNat_of_lt' (lt_of_le_of_lt hle hlt)]
  exact hle

theorem standing_written (h : Finished Z H (.new params) entries written) :
    ∃ r, openSpill written.2.2 written.1.manifestHash = .ok r ∧
      Standing Z H r [] (batches entries) := by
  obtain ⟨tail, hspill, htail⟩ := h.spill
  have hflat : (batches entries).flatten = entries := flatten_batchesFrom [] entries
  refine ⟨⟨tail, written.1.manifestHash, [], [], 0, 0, 0, 0, false⟩, ?_, ?_⟩
  · rw [hspill]
    rfl
  · refine ⟨rfl, rfl, rfl, ⟨_, htail⟩, ?_, ?_, ?_, ?_, by decide⟩
    · exact fun b hb => mem_batchesFrom (by decide) hb
    · rw [hflat]
      exact h.hash
    · rw [hflat]
      exact h.entries_le
    · rw [hflat]
      exact h.bytes_le

/-- A written manifest is read back exactly if its entries are in canonical form, no batch is larger
than 16 MiB, and the sizes of the files, summed in 64 bits, are at most 8 GiB. -/
theorem readsBack_iff (hZ : SoundFrames Z) {params : ChunkParams} {entries : List FileEntry}
    {written : ManifestBegin × ManifestEnd × Bytes} (hchecked : ∀ e ∈ entries, e.Checked)
    (hw : writeManifest Z H params entries = .ok written) :
    ReadsBack Z H entries written ↔ WithinLimits entries := by
  have hfinished := finished_writeManifest hw
  obtain ⟨r, hopen, hstanding⟩ := standing_written hfinished
  have hyields := hstanding.yields_left_iff hZ
  rw [nil_append, show (batches entries).flatten = entries from flatten_batchesFrom [] entries]
    at hyields
  have hreader : (∃ r, openSpill written.2.2 written.1.manifestHash = .ok r ∧
      r.Yields Z H entries) ↔ r.Yields Z H entries := by
    rw [hopen]
    simp
  have htotal : written.1.totalBytes.toNat = (entries.map fun e => e.size.toNat).sum % 2 ^ 64 := by
    rw [hfinished.total]
    simp [new]
  rw [ReadsBack, hreader, hyields hchecked, manifestBegin_comesBack_iff hfinished.count_le, htotal]
  constructor
  · rintro ⟨⟨hcanonical, hbatch⟩, hsum⟩
    exact ⟨hcanonical, hbatch, hsum⟩
  · rintro ⟨hcanonical, hbatch, hsum⟩
    exact ⟨⟨hcanonical, hbatch⟩, hsum⟩

/-! ## Two manifests -/

def storedCompressor : Compressor where
  encodeAll data _ := if data.length < 2 ^ 64 then some (encodeLE 8 data.length ++ data) else none
  decoder z :=
    if z.length < 8 then none
    else if z.drop 8 = [] then some ([], decodeLE (z.take 8) = 0)
    else some ([z.drop 8], decodeLE (z.take 8) = (z.drop 8).length)
  tierOf _ := .standard
  decoder_encodeAll := by
    intro data level z h
    split_ifs at h with hlt
    cases h
    have hlen : (encodeLE 8 data.length).length = 8 := length_encodeLE ..
    have hdrop : (encodeLE 8 data.length ++ data).drop 8 = data := drop_left' hlen
    have hsize : decodeLE ((encodeLE 8 data.length ++ data).take 8) = data.length := by
      rw [take_left' hlen]
      exact decodeLE_encodeLE_of_lt hlt
    have hlong : ¬ (encodeLE 8 data.length ++ data).length < 8 := by
      rw [length_append, hlen]
      omega
    refine ⟨fun hnil => hlong (by rw [hnil]; decide), ?_⟩
    rw [if_neg hlong, hdrop, hsize]
    by_cases hdata : data = []
    · exact ⟨[], by simp [hdata], by simp, by simp [hdata]⟩
    · exact ⟨[data], by simp [hdata], by simpa using hdata, by simp⟩

theorem soundFrames_stored : SoundFrames storedCompressor where
  bound := by
    intro data level z h
    change (if data.length < 2 ^ 64 then _ else _) = _ at h
    split_ifs at h
    cases h
    rw [length_append, length_encodeLE]
    omega
  cut := by
    intro data level z h n hn reads clean hdec
    change (if data.length < 2 ^ 64 then _ else _) = _ at h
    split_ifs at h with hlt
    cases h
    have hlen : (encodeLE 8 data.length).length = 8 := length_encodeLE ..
    rw [length_append] at hn
    change (if _ then _ else _) = _ at hdec
    split_ifs at hdec with hshort hnil
    · right
      cases hdec
      rfl
    · left
      cases hdec
      have htake : ((encodeLE 8 data.length ++ data).take n).take 8 = encodeLE 8 data.length := by
        rw [length_take] at hshort
        rw [take_take, min_eq_left (by omega), take_left' hlen]
      have hrest : (((encodeLE 8 data.length ++ data).take n).drop 8).length = n - 8 := by
        rw [length_drop, length_take, length_append]
        omega
      rw [length_take] at hshort
      rw [htake, decodeLE_encodeLE_of_lt hlt]
      refine ⟨decide_eq_false (by omega), ?_⟩
      simpa using Ne.symm hnil

theorem writeManifest_singleton {e : FileEntry} {z : Bytes}
    (hz : Z.encodeAll (encodeFileEntry e) 3 = some z)
    (hlen : (encodeFileEntry e).length ≤ maxManifestBytes) :
    ∃ written, writeManifest Z H params [e] = .ok written ∧ written.1.totalBytes = e.size := by
  have hlimit : ¬ maxManifestEntries ≤ (new params).fileCount :=
    show ¬ maxManifestEntries ≤ 0 by decide
  have hroom : ¬ manifestBatchSize ≤ ((new params).push e).batchEntries.length :=
    show ¬ manifestBatchSize ≤ 1 by decide
  have hadd : addEntries Z [e] (.new params) = .ok ((new params).push e) := by
    rfl
  have hbuf : ((new params).push e).batchEntries.flatMap encodeFileEntry =
      encodeFileEntry e := by
    simp [push, new]
  have hsize : ¬ maxManifestBytes < ((new params).push e).manifestBytes +
      (encodeFileEntry e).length := by
    rw [show ((new params).push e).manifestBytes = 0 from rfl]
    omega
  have hflush : ∃ batch, ((new params).push e).flushBatch Z =
      .ok (some batch, ((new params).push e).spillBatch batch) := by
    unfold flushBatch
    rw [hbuf]
    simp only [if_neg hsize, hz]
    exact ⟨_, rfl⟩
  obtain ⟨batch, hflush⟩ := hflush
  change ∃ written, ((new params).push e).finish Z H = .ok written ∧ _
  rw [finish, hflush]
  exact ⟨_, rfl, UInt64.zero_add _⟩

def imageEntry (n : ℕ) : FileEntry where
  flags := ⟨0⟩
  path := ⟨"images/disk.img"⟩
  size := ofNat (n * 4194304)
  mode := 0o644
  mtimeSec := 0
  mtimeNsec := 0
  fileHash := zero
  chunks := List.replicate n ⟨⟨0⟩, 4194304, some zero⟩
  symlinkTarget := none
  hardlinkTarget := none
  xattrs := []

theorem checked_imageEntry {n : ℕ} (hn : n ≤ maxWireChunks) : (imageEntry n).Checked where
  path_len := show (utf8 "images/disk.img").length ≤ Storage.maxPathTotal by decide
  path_valid := ⟨⟨"images/disk.img"⟩,
    show Storage.VPath.validate "images/disk.img" = .ok ⟨"images/disk.img"⟩ by decide +kernel⟩
  chunk_count := by
    rw [imageEntry, length_replicate]
    exact hn
  chunk_length := by
    intro c hc
    rw [eq_of_mem_replicate hc]
    decide
  size_eq := by
    intro _ _
    have hlt : n * 4194304 < 2 ^ 64 := by
      rw [maxWireChunks] at hn
      omega
    have hsize : (imageEntry n).size.toNat = n * 4194304 := toNat_ofNat_of_lt' hlt
    have hchunk : (4194304 : UInt64).toNat = 4194304 := rfl
    rw [hsize, imageEntry, map_replicate, sum_replicate, hchunk, smul_eq_mul]
  xattr_count := fun _ => Nat.zero_le _
  xattr_checked := by
    intro _ x hx
    cases hx
  xattr_bytes := fun _ => Nat.zero_le _

theorem length_imageEntry_le (n : ℕ) : (encodeFileEntry (imageEntry n)).length ≤ 52 * n + 128 := by
  have hchunks : ((imageEntry n).chunks.flatMap encodeChunkDesc).length ≤ n * 52 := by
    rw [length_flatMap, imageEntry, map_replicate, sum_replicate]
    exact Nat.mul_le_mul_left n (by decide)
  have hpath : (strField (imageEntry n).path.str).length ≤ 16 :=
    show (strField "images/disk.img").length ≤ 16 by decide
  have hflags : (encodeVarint (imageEntry n).flags.bits.toNat).length ≤ 10 := by
    rw [length_encodeVarint]
    exact varintLen_le _
  have hcount : (encodeVarint (imageEntry n).chunks.length).length ≤ 10 := by
    rw [length_encodeVarint]
    exact varintLen_le _
  have hsymlink : ¬ (imageEntry n).flags.fileType = .symlink :=
    show ¬ FileFlags.fileType ⟨0⟩ = .symlink by decide
  have hhardlink : ¬ (imageEntry n).flags.isHardlink :=
    show ¬ FileFlags.isHardlink ⟨0⟩ = true by decide
  have hxattrs : ¬ (imageEntry n).flags.hasXattrs :=
    show ¬ FileFlags.hasXattrs ⟨0⟩ = true by decide
  rw [encodeFileEntry, if_neg hsymlink, if_neg hhardlink, if_neg hxattrs]
  simp only [length_flatten, map_cons, map_nil, sum_cons, sum_nil, u64Field,
    u32Field, length_encodeLE, length_eq, chunkHashBytes, length_nil]
  omega

theorem writeManifest_image {n : ℕ} (hn : n ≤ maxWireChunks) :
    ∃ written, writeManifest storedCompressor (fun _ => zero) .default [imageEntry n] =
      .ok written ∧ written.1.totalBytes = ofNat (n * 4194304) := by
  have hlen := length_imageEntry_le n
  rw [maxWireChunks] at hn
  have hz : storedCompressor.encodeAll (encodeFileEntry (imageEntry n)) 3 =
      some (encodeLE 8 (encodeFileEntry (imageEntry n)).length ++ encodeFileEntry (imageEntry n)) :=
    if_pos (by omega)
  refine writeManifest_singleton hz ?_
  rw [maxManifestBytes]
  omega

theorem readsBack_iff_image : ∃ written,
    writeManifest storedCompressor (fun _ => zero) .default [imageEntry 1] = .ok written ∧
    (∀ e ∈ [imageEntry 1], e.Checked) ∧
    (ReadsBack storedCompressor (fun _ => zero) [imageEntry 1] written ↔
      WithinLimits [imageEntry 1]) := by
  obtain ⟨written, hw, -⟩ := writeManifest_image (n := 1) (by decide)
  have hchecked : ∀ e ∈ [imageEntry 1], e.Checked := by
    intro e he
    rw [mem_singleton.1 he]
    exact checked_imageEntry (by decide)
  exact ⟨written, hw, hchecked, readsBack_iff soundFrames_stored hchecked hw⟩

/-- The manifest of one file of 9 GiB is written, but its opening message is refused. -/
theorem not_readsBack_image : ∃ written,
    writeManifest storedCompressor (fun _ => zero) .default [imageEntry 2304] = .ok written ∧
    (∀ e ∈ [imageEntry 2304], e.Checked) ∧
    ¬ ReadsBack storedCompressor (fun _ => zero) [imageEntry 2304] written := by
  have hn : 2304 ≤ maxWireChunks := by decide
  obtain ⟨written, hw, htotal⟩ := writeManifest_image hn
  refine ⟨written, hw, ?_, ?_⟩
  · intro e he
    rw [mem_singleton.1 he]
    exact checked_imageEntry hn
  · rintro ⟨-, hbegin⟩
    have hcount := (finished_writeManifest hw).count_le
    have hle := (manifestBegin_comesBack_iff hcount).1 hbegin
    rw [htotal] at hle
    exact absurd hle (by decide)

end Velcrux.Manifest
