import Velcrux.Protocol.DataFrame

/-!
# Round trips of the data-stream format

A preamble and a frame header come back as they were written, except that the length field keeps
only its low 32 bits. Decompression accepts what the compressor produced exactly within the size and
ratio limits.
-/

namespace Velcrux.Protocol

open LittleEndian ByteFile List

variable {maxBytes ratio : ℕ} {data z : Bytes}

/-! ## Preamble and header -/

@[simp] theorem length_encodeDataPreamble (p : DataPreamble) :
    (encodeDataPreamble p).length = dataPreambleLen := by
  simp [encodeDataPreamble, dataPreambleLen, p.transferId.length_eq]

theorem decodeDataPreamble_encode (p : DataPreamble) (h1 : p.fileId < 2 ^ 64)
    (h2 : p.streamSeq < 2 ^ 64) : decodeDataPreamble (encodeDataPreamble p) = .ok p := by
  have hlen : ¬ (encodeDataPreamble p).length < dataPreambleLen := by simp
  have htid : slice (encodeDataPreamble p) 0 16 = p.transferId.bytes := by
    simp only [encodeDataPreamble, append_assoc]
    exact slice_append_left p.transferId.length_eq
  have hfile : slice (encodeDataPreamble p) 16 8 = encodeLE 8 p.fileId := by
    simp only [encodeDataPreamble, append_assoc]
    rw [show 16 = 16 + 0 from rfl, slice_append_right p.transferId.length_eq]
    exact slice_append_left (length_encodeLE 8 _)
  have hseq : slice (encodeDataPreamble p) 24 8 = encodeLE 8 p.streamSeq := by
    simp only [encodeDataPreamble, append_assoc]
    rw [show 24 = 16 + (8 + 0) from rfl, slice_append_right p.transferId.length_eq]
    exact slice_append_left (length_encodeLE 8 _)
  unfold decodeDataPreamble
  rw [if_neg hlen, htid, TransferId.fromBytes_bytes]
  rw [hfile, hseq, decodeLE_encodeLE_of_lt (by simpa using h1),
    decodeLE_encodeLE_of_lt (by simpa using h2)]

@[simp] theorem length_encodeDataFrameHeader (h : DataFrameHeader) :
    (encodeDataFrameHeader h).length = dataFrameHeaderLen := by
  simp [encodeDataFrameHeader, dataFrameHeaderLen, h.chunkHash.length_eq, chunkHashBytes]

/-- **Header round trip.** The length comes back modulo `2 ^ 32`, and is refused above the limit. -/
theorem decodeDataFrameHeader_encode (h : DataFrameHeader) (h1 : h.chunkOffset < 2 ^ 64)
    (h2 : h.flags.bits < 2 ^ 16) :
    decodeDataFrameHeader (encodeDataFrameHeader h) =
      if dataMaxChunkLen < h.chunkLen % 2 ^ 32 then
        .error (.malformed "data frame: chunk_len > max")
      else .ok { h with chunkLen := h.chunkLen % 2 ^ 32 } := by
  have hlen : ¬ (encodeDataFrameHeader h).length < dataFrameHeaderLen := by simp
  have hoff : slice (encodeDataFrameHeader h) 0 8 = encodeLE 8 h.chunkOffset := by
    exact slice_append_left (length_encodeLE 8 _)
  have hcl : slice (encodeDataFrameHeader h) 8 4 = encodeLE 4 h.chunkLen := by
    exact slice_append_left (length_encodeLE 4 _)
  have hfl : slice (encodeDataFrameHeader h) 12 2 = encodeLE 2 h.flags.bits := by
    exact slice_append_left (length_encodeLE 2 _)
  have hhash : slice (encodeDataFrameHeader h) 16 32 = h.chunkHash.bytes := by
    simp only [encodeDataFrameHeader, append_assoc]
    rw [show 16 = 8 + (4 + (2 + (2 + 0))) from rfl, slice_append_right (length_encodeLE 8 _),
      slice_append_right (length_encodeLE 4 _), slice_append_right (length_encodeLE 2 _)]
    have hl : h.chunkHash.bytes.length = 32 := h.chunkHash.length_eq
    simp [slice, hl]
  unfold decodeDataFrameHeader
  rw [if_neg hlen, hoff, hcl, hfl, hhash, Hash.fromBytes_bytes,
    decodeLE_encodeLE 4, decodeLE_encodeLE_of_lt (by simpa using h1),
    decodeLE_encodeLE_of_lt (by simpa using h2)]
  rfl

/-! ## Compression -/

variable {Z : Compressor}

def WithinRatio (len zlen ratio : ℕ) : Prop := len ≤ 64 * 1024 ∨ len ≤ zlen * ratio

instance (len zlen ratio : ℕ) : Decidable (WithinRatio len zlen ratio) :=
  inferInstanceAs (Decidable (_ ∨ _))

theorem decompressLoop_ok {zlen : ℕ} (hz : 0 < zlen) {o : Bytes}
    {reads : List Bytes} (hne : ∀ r ∈ reads, r ≠ []) (hmax : (o ++ reads.flatten).length ≤ maxBytes)
    (hr : WithinRatio (o ++ reads.flatten).length zlen ratio) :
    decompressLoop zlen maxBytes (some ratio) o reads true = .ok (o ++ reads.flatten) := by
  induction reads generalizing o with
  | nil => simp [decompressLoop]
  | cons p ps ih =>
    have hflat : o ++ (p :: ps).flatten = (o ++ p) ++ ps.flatten := by simp
    rw [hflat] at hmax hr ⊢
    have hle : o.length + p.length ≤ ((o ++ p) ++ ps.flatten).length := by simp
    have hmaxlen : Nat.max zlen 1 = zlen := Nat.max_eq_left hz
    have hratio : ¬ (64 * 1024 < o.length + p.length ∧
        Nat.max zlen 1 * ratio < o.length + p.length) := by
      rw [hmaxlen]
      rcases hr with hr | hr
      · omega
      · omega
    rw [decompressLoop, if_neg (hne p mem_cons_self), if_neg (by omega), if_neg hratio]
    exact ih (fun r h => hne r (mem_cons_of_mem _ h)) hmax hr

theorem decompressLoop_error {zlen : ℕ} (hz : 0 < zlen) {o : Bytes}
    {reads : List Bytes} (hne : ∀ r ∈ reads, r ≠ []) (hout : o.length ≤ maxBytes)
    (hrout : WithinRatio o.length zlen ratio)
    (h : maxBytes < (o ++ reads.flatten).length ∨
      ¬ WithinRatio (o ++ reads.flatten).length zlen ratio) :
    ∃ e, decompressLoop zlen maxBytes (some ratio) o reads true = .error e := by
  induction reads generalizing o with
  | nil =>
    rw [flatten_nil, append_nil] at h
    rcases h with h | h
    · omega
    · exact absurd hrout h
  | cons p ps ih =>
    have hflat : o ++ (p :: ps).flatten = (o ++ p) ++ ps.flatten := by simp
    have hmaxlen : Nat.max zlen 1 = zlen := Nat.max_eq_left hz
    rw [hflat] at h
    rw [decompressLoop, if_neg (hne p mem_cons_self)]
    by_cases h1 : maxBytes < o.length + p.length
    · exact ⟨_, if_pos h1⟩
    rw [if_neg h1]
    by_cases h2 : 64 * 1024 < o.length + p.length ∧
        Nat.max zlen 1 * ratio < o.length + p.length
    · exact ⟨_, if_pos h2⟩
    rw [if_neg h2]
    rw [hmaxlen] at h2
    refine ih (fun r h => hne r (mem_cons_of_mem _ h)) (by simp; omega) ?_ h
    unfold WithinRatio
    rw [length_append]
    omega

/-- **The receiver on a compressed chunk**: it gets the chunk back within the limits, and an error
outside them. -/
theorem decompressPayloadBounded_encodeAll {level : Int} (hz : Z.encodeAll data level = some z) :
    (data.length ≤ maxBytes ∧ WithinRatio data.length z.length ratio →
      decompressPayloadBounded Z z maxBytes (some ratio) = .ok data) ∧
    (¬ (data.length ≤ maxBytes ∧ WithinRatio data.length z.length ratio) →
      ∃ e, decompressPayloadBounded Z z maxBytes (some ratio) = .error e) := by
  obtain ⟨hne, reads, hdec, hreads, rfl⟩ := Z.decoder_encodeAll hz
  have hpos := length_pos_iff.mpr hne
  unfold decompressPayloadBounded
  rw [if_neg hne, hdec]
  constructor
  · rintro ⟨h1, h2⟩
    simpa using decompressLoop_ok (o := []) hpos hreads (by simpa using h1) (by simpa using h2)
  · intro h
    refine decompressLoop_error hpos hreads (Nat.zero_le _) (.inl (Nat.zero_le _)) ?_
    by_cases h1 : maxBytes < reads.flatten.length
    · exact .inl h1
    · exact .inr fun h2 => h ⟨by omega, h2⟩

theorem decompressPayloadBounded_eq_ok_iff {level : Int} (maxBytes ratio : ℕ)
    (hz : Z.encodeAll data level = some z) (out : Bytes) :
    decompressPayloadBounded Z z maxBytes (some ratio) = .ok out ↔
      out = data ∧ data.length ≤ maxBytes ∧ WithinRatio data.length z.length ratio := by
  obtain ⟨hin, hout⟩ := decompressPayloadBounded_encodeAll hz
  by_cases hlimits : data.length ≤ maxBytes ∧ WithinRatio data.length z.length ratio
  · rw [hin hlimits, Except.ok.injEq]
    exact ⟨fun h => ⟨h.symm, hlimits⟩, fun h => h.1.symm⟩
  · obtain ⟨e, he⟩ := hout hlimits
    rw [he]
    exact ⟨nofun, fun h => absurd h.2 hlimits⟩

theorem compressIfBeneficial_form {savings : ℕ} (h : compressIfBeneficial Z data savings = some z) :
    (∃ level, Z.encodeAll data level = some z) ∧ z.length + savings ≤ data.length := by
  unfold compressIfBeneficial at h
  split_ifs at h with h1 h2
  cases he : Z.encodeAll data defaultZstdLevel with
  | none => simp [he] at h
  | some w =>
    rw [he] at h
    dsimp only at h
    split_ifs at h with h3
    obtain rfl : w = z := by simpa using h
    exact ⟨⟨_, he⟩, h3⟩

end Velcrux.Protocol
