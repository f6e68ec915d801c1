import Velcrux.Util
import Velcrux.Error

/-!
# Wire compression

`protocol/compression`: the stateless and the adaptive compression of a payload, and the bounded
decompression of the receiver. zstd itself and the floating-point entropy estimate are parameters.
-/

namespace Velcrux.Protocol

inductive EntropyTier where
  | ultraRepetitive
  | standard
  | marginal
  | incompressible
deriving DecidableEq

def EntropyTier.recommendedLevel : EntropyTier → Option Int
  | .ultraRepetitive => some 7
  | .standard => some 3
  | .marginal => some 1
  | .incompressible => none

/-- What the code takes from outside `src/` to compress: the zstd library, and the classification
of `estimate_entropy`, whose arithmetic is floating point.

`decoder z` is the output of `zstd::Decoder` on `z`: `none` when the header is refused, otherwise
the successive reads and whether the last of them ended without an error. -/
structure Compressor where
  encodeAll : Bytes → Int → Option Bytes
  decoder : Bytes → Option (List Bytes × Bool)
  tierOf : Bytes → EntropyTier
  /-- A compressed payload has a header, and decompressing inverts compressing. -/
  decoder_encodeAll : ∀ {data level z}, encodeAll data level = some z →
    z ≠ [] ∧ ∃ reads, decoder z = some (reads, true) ∧ (∀ r ∈ reads, r ≠ []) ∧ reads.flatten = data

def idleCompressor : Compressor where
  encodeAll _ _ := none
  decoder _ := none
  tierOf _ := .incompressible
  decoder_encodeAll h := by cases h

def minCompressibleSize : ℕ := 128

def defaultMinSavings : ℕ := 16

def defaultZstdLevel : Int := 3

variable (Z : Compressor)

def compressIfBeneficial (data : Bytes) (minSavings : ℕ) : Option Bytes :=
  if data.length < minCompressibleSize then none
  else if Z.tierOf data = .incompressible then none
  else
    match Z.encodeAll data defaultZstdLevel with
    | some z => if z.length + minSavings ≤ data.length then some z else none
    | none => none

/-- `AdaptiveCompressionSelector` with the default configuration; the telemetry counters are left
out. -/
structure Selector where
  consecutiveFailures : ℕ
  cooldownRemaining : ℕ
deriving DecidableEq

def Selector.withDefaults : Selector := ⟨0, 0⟩

def Selector.fail (s : Selector) : Selector :=
  if 3 ≤ s.consecutiveFailures + 1 then ⟨s.consecutiveFailures + 1, 6⟩
  else ⟨s.consecutiveFailures + 1, s.cooldownRemaining⟩

def Selector.processPayload (s : Selector) (payload : Bytes) : Option Bytes × Selector :=
  if payload.length < minCompressibleSize then (none, s)
  else if 0 < s.cooldownRemaining then
    (none, { s with cooldownRemaining := s.cooldownRemaining - 1 })
  else if Z.tierOf payload = .incompressible then (none, s.fail)
  else
    let level := (Z.tierOf payload).recommendedLevel.getD defaultZstdLevel
    match Z.encodeAll payload level with
    | some z =>
      if z.length + defaultMinSavings ≤ payload.length then (some z, ⟨0, 0⟩) else (none, s.fail)
    | none => (none, s.fail)

def decompressLoop (compressedLen maxBytes : ℕ) (maxRatio : Option ℕ) (out : Bytes) :
    List Bytes → Bool → Except ProtocolError Bytes
  | [], true => .ok out
  | [], false => .error (.malformed "zstd decode error")
  | p :: ps, clean =>
    -- an empty read is the end of the stream
    if p = [] then .ok out
    else if maxBytes < out.length + p.length then
      .error (.decompressionBomb s!"decompressed size exceeds limit of {maxBytes} bytes")
    else
      match maxRatio with
      | some ratio =>
        if 64 * 1024 < out.length + p.length ∧
            Nat.max compressedLen 1 * ratio < out.length + p.length then
          .error (.decompressionBomb s!"decompression expansion ratio exceeded {ratio}x limit")
        else decompressLoop compressedLen maxBytes maxRatio (out ++ p) ps clean
      | none => decompressLoop compressedLen maxBytes maxRatio (out ++ p) ps clean

def decompressPayloadBounded (compressed : Bytes) (maxBytes : ℕ) (maxRatio : Option ℕ) :
    Except ProtocolError Bytes :=
  if compressed = [] then .error (.malformed "empty compressed payload")
  else
    match Z.decoder compressed with
    | none => .error (.malformed "invalid zstd header")
    | some (reads, clean) => decompressLoop compressed.length maxBytes maxRatio [] reads clean

end Velcrux.Protocol
