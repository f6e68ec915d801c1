import Velcrux.Protocol.DataFrame

/-!
# Encrypted data frames

`crypto/chunk_aead` and the encrypted half of `protocol/frame`: a chunk is compressed if that pays,
sealed, and sent as the payload of a DATA frame. The ciphers and the random nonce are parameters.
-/

namespace Velcrux.Protocol

open LittleEndian

def nonceLen : ℕ := 12

def tagLen : ℕ := 16

def envelopeOverhead : ℕ := nonceLen + tagLen

inductive CryptoError where
  | authenticationFailed
  | truncatedCiphertext (expected actual : ℕ)
  | unspecified (detail : String)
deriving DecidableEq

/-- The AEAD ciphers of `ring`, over their keys `κ`: a `LessSafeKey` fixes the suite too. Sealing
gives ciphertext and tag, opening takes them in one piece. -/
structure Aead (κ : Type) where
  sealInPlace : κ → Bytes → Bytes → Bytes → Option (Bytes × Bytes)
  openInPlace : κ → Bytes → Bytes → Bytes → Option Bytes
  /-- Opening inverts sealing, and a ciphertext is as long as its plaintext. -/
  open_seal : ∀ {key nonce aad p c tag}, sealInPlace key nonce aad p = some (c, tag) →
    c.length = p.length ∧ tag.length = tagLen ∧ openInPlace key nonce aad (c ++ tag) = some p

structure Nonce where
  bytes : Bytes
  length_eq : bytes.length = nonceLen

def buildChunkAad (transferId : TransferId) (chunkOffset chunkIndex : ℕ) : Bytes :=
  transferId.bytes ++ encodeLE 8 chunkOffset ++ encodeLE 4 chunkIndex

variable {κ : Type} (A : Aead κ) (Z : Compressor) (key : κ)

def encryptChunk (nonce : Option Nonce) (transferId : TransferId) (chunkOffset chunkIndex : ℕ)
    (plaintext : Bytes) : Except CryptoError Bytes :=
  match nonce with
  | none => .error (.unspecified "failed to generate random nonce")
  | some n =>
    match A.sealInPlace key n.bytes (buildChunkAad transferId chunkOffset chunkIndex) plaintext with
    | none => .error (.unspecified "sealing failed")
    | some (c, tag) => .ok (n.bytes ++ (c ++ tag))

def decryptChunk (transferId : TransferId) (chunkOffset chunkIndex : ℕ) (envelope : Bytes) :
    Except CryptoError Bytes :=
  if envelope.length < envelopeOverhead then
    .error (.truncatedCiphertext envelopeOverhead envelope.length)
  else
    match A.openInPlace key (envelope.take nonceLen)
        (buildChunkAad transferId chunkOffset chunkIndex) (envelope.drop nonceLen) with
    | none => .error .authenticationFailed
    | some plain => .ok plain

def bulkDecompress (z : Bytes) (capacity : ℕ) : Option Bytes :=
  match Z.decoder z with
  | some (reads, true) => if reads.flatten.length ≤ capacity then some reads.flatten else none
  | _ => none

def DataFrameFlags.encryptedFlag : DataFrameFlags := ⟨0x0004⟩

def maybeCompressed (payload : Bytes) (enableCompression : Bool) : Option Bytes :=
  if enableCompression then compressIfBeneficial Z payload defaultMinSavings else none

def toSeal (payload : Bytes) (enableCompression : Bool) : Bytes :=
  (maybeCompressed Z payload enableCompression).getD payload

def sealedFlags (compressed : Bool) : DataFrameFlags :=
  ⟨(if compressed then .compressedFlag else .none : DataFrameFlags).bits |||
    DataFrameFlags.encryptedFlag.bits⟩

def encodeDataFrameEncrypted (nonce : Option Nonce) (chunkOffset chunkIndex : ℕ)
    (transferId : TransferId) (chunkHash : Hash) (payload : Bytes) (enableCompression : Bool) :
    Except CryptoError Bytes :=
  match encryptChunk A key nonce transferId chunkOffset chunkIndex
      (toSeal Z payload enableCompression) with
  | .error e => .error e
  | .ok envelope =>
    .ok (encodeDataFrame chunkOffset envelope.length
      (sealedFlags (maybeCompressed Z payload enableCompression).isSome) chunkHash envelope)

def decodeDataFrameEncrypted (header : DataFrameHeader) (chunkIndex : ℕ) (transferId : TransferId)
    (rawPayload : Bytes) : Except CryptoError Bytes :=
  match decryptChunk A key transferId header.chunkOffset chunkIndex rawPayload with
  | .error e => .error e
  | .ok plainOrCompressed =>
    if header.flags.compressed then
      match bulkDecompress Z plainOrCompressed dataMaxChunkLen with
      | none => .error (.unspecified "zstd decompression failed")
      | some decompressed => .ok decompressed
    else .ok plainOrCompressed

/-- The header of `buf` is accepted with the offset and the length of the rest, and the rest
decodes to the payload. -/
def Opens (chunkOffset chunkIndex : ℕ) (transferId : TransferId) (payload buf : Bytes) : Prop :=
  ∃ header, decodeDataFrameHeader buf = .ok header ∧ header.chunkOffset = chunkOffset ∧
    header.chunkLen = (buf.drop dataFrameHeaderLen).length ∧
    decodeDataFrameEncrypted A Z key header chunkIndex transferId (buf.drop dataFrameHeaderLen) =
      .ok payload

end Velcrux.Protocol
