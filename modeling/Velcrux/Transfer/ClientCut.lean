import Velcrux.Transfer.Proofs.SendProofs

/-!
# The chunks a client sends

`client_upload_stream` seen as a whole: the cut of the file it sends when it starts from a bitmap,
the form each chunk is sent in, and the share of each sender.
-/

namespace Velcrux.Transfer

open Protocol State

def PipelineConfig.Fixed (cfg : PipelineConfig) (bm : ChunkBitmap) : Prop :=
  1 < cfg.parallel ∨ 0 < bm.len ∨ cfg.chunkMode = .fixed

instance (cfg : PipelineConfig) (bm : ChunkBitmap) : Decidable (cfg.Fixed bm) :=
  inferInstanceAs (Decidable (_ ∨ _ ∨ _))

def clientCut (cfg : PipelineConfig) (file : SourceFile) (bm : ChunkBitmap) : List (ℕ × Bytes) :=
  if cfg.Fixed bm then
    (missingFrom bm 0 (divCeil file.size (cfg.chunkSize bm file.size))).map
      (chunkAt file.bytes (cfg.chunkSize bm file.size))
  else if cfg.readBufferSize = 0 then []
  else cdcCut cfg file.bytes

def statelessForm (Z : Compressor) (compression : Bool) (data : Bytes) : Option Bytes :=
  if compression then compressIfBeneficial Z data defaultMinSavings else none

/-- The chunks with the compressed form each may be sent in: that of a selector without a history
for parallel streams, that of the selector's own history for a single one, and that of the stateless
compressor in the content-defined pipeline. -/
def clientSent (Z : Compressor) (cfg : PipelineConfig) (file : SourceFile) (bm : ChunkBitmap) :
    List SentChunk :=
  if 1 < cfg.parallel then
    (clientCut cfg file bm).map fun c =>
      ⟨c.1, c.2, (chooseForm Z cfg.compression .withDefaults c.2).1⟩
  else if cfg.Fixed bm then
    sentChunks Z cfg.compression .withDefaults (clientCut cfg file bm)
  else (clientCut cfg file bm).map fun c => ⟨c.1, c.2, statelessForm Z cfg.compression c.2⟩

def BuffersOk (cfg : PipelineConfig) : Prop :=
  0 < cfg.maxInflight ∧ cfg.maxInflight ≤ maxPermits ∧
    cfg.readBufferSize ≤ isizeMax ∧ cfg.chunkParams.max ≤ isizeMax

end Velcrux.Transfer
