import Velcrux.Protocol.Encrypted
import Velcrux.Protocol.Proofs.DataFrameProofs

/-!
# Round trip of encrypted data frames

The envelope is longer than what it seals, and the header decoder holds it to the limit for plain
chunks: a frame comes back exactly if that limit leaves room for the nonce and the tag.
-/

namespace Velcrux.Protocol

open LittleEndian ByteFile List

variable {κ : Type} {A : Aead κ} {Z : Compressor} {key : κ} {nonce : Option Nonce}
variable {transferId : TransferId} {chunkHash : Hash} {chunkOffset chunkIndex : ℕ}
variable {payload buf : Bytes} {enableCompression : Bool}

theorem encryptChunk_ok {p envelope : Bytes}
    (h : encryptChunk A key nonce transferId chunkOffset chunkIndex p = .ok envelope) :
    envelope.length = p.length + envelopeOverhead ∧
      decryptChunk A key transferId chunkOffset chunkIndex envelope = .ok p := by
  unfold encryptChunk at h
  split at h
  · cases h
  next n =>
    split at h
    · cases h
    next c tag hseal =>
      obtain ⟨hc, htag, hopen⟩ := A.open_seal hseal
      cases h
      have hlen : (n.bytes ++ (c ++ tag)).length = p.length + envelopeOverhead := by
        rw [length_append, length_append, n.length_eq, envelopeOverhead]
        omega
      refine ⟨hlen, ?_⟩
      unfold decryptChunk
      rw [if_neg (by omega), take_left' n.length_eq, drop_left' n.length_eq, hopen]

theorem bulkDecompress_encodeAll {data z : Bytes} {level : Int} {capacity : ℕ}
    (hz : Z.encodeAll data level = some z) (hcap : data.length ≤ capacity) :
    bulkDecompress Z z capacity = some data := by
  obtain ⟨-, reads, hdec, -, rfl⟩ := Z.decoder_encodeAll hz
  unfold bulkDecompress
  rw [hdec]
  exact if_pos hcap

theorem length_toSeal_le (Z : Compressor) (payload : Bytes) (enableCompression : Bool) :
    (toSeal Z payload enableCompression).length ≤ payload.length := by
  unfold toSeal
  cases h : maybeCompressed Z payload enableCompression with
  | none => exact Nat.le_refl _
  | some z =>
    rw [maybeCompressed] at h
    split_ifs at h
    have := (compressIfBeneficial_form h).2
    exact Nat.le_of_add_right_le this

theorem decodeDataFrameHeader_append (h : DataFrameHeader) (rest : Bytes) :
    decodeDataFrameHeader (encodeDataFrameHeader h ++ rest) =
      decodeDataFrameHeader (encodeDataFrameHeader h) := by
  have hl := length_encodeDataFrameHeader h
  have hslice (off len : ℕ) (hle : off + len ≤ dataFrameHeaderLen) :
      slice (encodeDataFrameHeader h ++ rest) off len = slice (encodeDataFrameHeader h) off len := by
    unfold slice
    rw [drop_append_of_le_length (by omega), take_append_of_le_length (by rw [length_drop]; omega)]
  have hlong : ¬ (encodeDataFrameHeader h ++ rest).length < dataFrameHeaderLen := by
    rw [length_append]; omega
  unfold decodeDataFrameHeader
  rw [if_neg hlong, if_neg (Nat.not_lt.mpr hl.ge), hslice 0 8 (by decide), hslice 8 4 (by decide),
    hslice 12 2 (by decide), hslice 14 2 (by decide), hslice 16 32 (by decide)]

theorem decodeDataFrameHeader_encrypted (hoff : chunkOffset < 2 ^ 64)
    (hlen : payload.length ≤ dataMaxChunkLen)
    (h : encodeDataFrameEncrypted A Z key nonce chunkOffset chunkIndex transferId chunkHash payload
      enableCompression = .ok buf) :
    encryptChunk A key nonce transferId chunkOffset chunkIndex
        (toSeal Z payload enableCompression) = .ok (buf.drop dataFrameHeaderLen) ∧
      decodeDataFrameHeader buf =
        if dataMaxChunkLen < (toSeal Z payload enableCompression).length + envelopeOverhead then
          .error (.malformed "data frame: chunk_len > max")
        else .ok ⟨chunkOffset, (buf.drop dataFrameHeaderLen).length,
          sealedFlags (maybeCompressed Z payload enableCompression).isSome, chunkHash⟩ := by
  unfold encodeDataFrameEncrypted at h
  split at h
  · cases h
  next envelope henv =>
    have hsize := (encryptChunk_ok henv).1
    have hsmall : envelope.length < 2 ^ 32 := by
      have hseal := length_toSeal_le Z payload enableCompression
      simp only [dataMaxChunkLen, envelopeOverhead, nonceLen, tagLen] at *
      omega
    generalize (maybeCompressed Z payload enableCompression).isSome = c at h ⊢
    have hhole : (sealedFlags c).isHole = false := by cases c <;> rfl
    have hbits : (sealedFlags c).bits < 2 ^ 16 := by cases c <;> decide
    rw [encodeDataFrame, hhole, if_neg Bool.false_ne_true] at h
    cases h
    rw [decodeDataFrameHeader_append, decodeDataFrameHeader_encode _ hoff hbits,
      drop_left' (length_encodeDataFrameHeader _), Nat.mod_eq_of_lt hsmall, hsize]
    exact ⟨henv, rfl⟩

/-- **Encrypted frames.** A frame comes back exactly if what it seals leaves room for the envelope
within the limit on a chunk. -/
theorem opens_iff (A : Aead κ) (Z : Compressor) (key : κ) (nonce : Option Nonce)
    (chunkIndex : ℕ) (transferId : TransferId) (chunkHash : Hash) (enableCompression : Bool)
    (hoff : chunkOffset < 2 ^ 64) (hlen : payload.length ≤ dataMaxChunkLen)
    (h : encodeDataFrameEncrypted A Z key nonce chunkOffset chunkIndex transferId chunkHash payload
      enableCompression = .ok buf) :
    Opens A Z key chunkOffset chunkIndex transferId payload buf ↔
      (toSeal Z payload enableCompression).length + envelopeOverhead ≤ dataMaxChunkLen := by
  obtain ⟨henv, hdec⟩ := decodeDataFrameHeader_encrypted hoff hlen h
  constructor
  · rintro ⟨header, hheader, -⟩
    by_contra hgt
    rw [hdec, if_pos (Nat.lt_of_not_le hgt)] at hheader
    cases hheader
  intro hle
  rw [if_neg (Nat.not_lt.mpr hle)] at hdec
  refine ⟨_, hdec, rfl, rfl, ?_⟩
  unfold decodeDataFrameEncrypted
  rw [(encryptChunk_ok henv).2]
  dsimp only
  rw [toSeal]
  cases hcomp : maybeCompressed Z payload enableCompression with
  | none => exact if_neg (by decide)
  | some z =>
    rw [maybeCompressed] at hcomp
    split_ifs at hcomp
    obtain ⟨⟨level, hz⟩, -⟩ := compressIfBeneficial_form hcomp
    rw [Option.getD_some, bulkDecompress_encodeAll hz hlen]
    exact if_pos (show (sealedFlags true).compressed = true from rfl)

def clearAead : Aead Unit where
  sealInPlace _ _ _ p := some (p, replicate tagLen 0)
  openInPlace _ _ _ b := some (b.take (b.length - tagLen))
  open_seal h := by
    cases h
    simp

def zeroFrame (payload : Bytes) : Except CryptoError Bytes :=
  encodeDataFrameEncrypted clearAead idleCompressor () (some ⟨replicate 12 0, rfl⟩) 0 0
    .zero .zero payload false

theorem opens_one : ∃ buf, zeroFrame [1] = .ok buf ∧
    Opens clearAead idleCompressor () 0 0 ⟨replicate 16 0, rfl⟩ [1] buf :=
  ⟨_, rfl, (opens_iff _ _ _ _ _ _ _ _ (by decide) (by decide)
    (show zeroFrame [1] = .ok _ from rfl)).mpr (by decide)⟩

/-- The largest chunk that may be sent in the clear is refused when it is sealed. -/
theorem not_opens_zeros : ∃ buf, zeroFrame (replicate dataMaxChunkLen 0) = .ok buf ∧
    decodeDataFrameHeader buf = .error (.malformed "data frame: chunk_len > max") := by
  refine ⟨_, rfl, ?_⟩
  obtain ⟨-, hdec⟩ := decodeDataFrameHeader_encrypted (by decide)
    (Nat.le_of_eq length_replicate) (show zeroFrame (replicate dataMaxChunkLen 0) = .ok _ from rfl)
  rw [hdec]
  have hsealed : (toSeal idleCompressor (replicate dataMaxChunkLen 0) false).length =
      dataMaxChunkLen := length_replicate
  rw [hsealed]
  exact if_pos (Nat.lt_add_of_pos_right (by decide))

end Velcrux.Protocol
