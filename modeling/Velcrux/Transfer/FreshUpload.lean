import Velcrux.Transfer.ClientCut
import Velcrux.Transfer.Upload

/-!
# Fresh uploads: the contract and its condition

Whatever the reads return, whichever worker takes which chunk and in whatever order the chunks take
effect, the server ends up with the client's file. The receiver drops a later chunk of a 1 MiB slot;
`Fits` is the condition on the cut.
-/

namespace Velcrux.Transfer

open Protocol State Storage ByteFile

/-! ## The contract -/

structure FreshContext where
  backend : LocalBackend
  avail : Option ℕ
  existing : Option Bytes
  storedBitmap : ChunkBitmap
  transferId : TransferId
  hasStore : Bool
  bytesTransferred : ℕ

def FreshContext.session (ctx : FreshContext) (H : HashFn) (cfg : PipelineConfig)
    (file : SourceFile) : UploadSession where
  backend := ctx.backend
  avail := ctx.avail
  existing := ctx.existing
  storedBitmap := ctx.storedBitmap
  resumed := false
  transferId := ctx.transferId
  expectedSize := file.size
  expectedHash := H file.bytes
  initialBitmap := none
  parallelStreams := cfg.parallel

/-- The chunk `c` keeps its slot: no other chunk starts in it or, when the chunks arrive in order,
none before it. -/
def KeepsSlot (cfg : PipelineConfig) (file : SourceFile) (c : ℕ × Bytes) : Prop :=
  ∀ d ∈ clientCut cfg file .new, d.1 / m3ChunkSize = c.1 / m3ChunkSize →
    if 1 < cfg.parallel then d = c else c.1 ≤ d.1

structure Fits (Z : Compressor) (cfg : PipelineConfig) (file : SourceFile) : Prop where
  buffers : ¬ cfg.Fixed .new → BuffersOk cfg
  accepted : ∀ s ∈ clientSent Z cfg file .new, s.Accepted
  kept : ∀ i, i < file.size → cellAt file.bytes i ≠ 0 →
    ∃ c ∈ clientCut cfg file .new, Covers c i ∧ KeepsSlot cfg file c

end Velcrux.Transfer
