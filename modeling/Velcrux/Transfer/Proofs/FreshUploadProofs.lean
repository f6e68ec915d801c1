import Velcrux.Transfer.FreshUpload
import Velcrux.Transfer.Proofs.SessionProofs

/-!
# When a fresh upload delivers the file

A fresh staging file is all zeros. When the receiver accepts every chunk, it ends up as the file
exactly when the chunks that take effect reach every non-zero byte.
-/

namespace Velcrux.Transfer

open Chunking Protocol State Storage ByteFile Cutting Streams List

variable {H : HashFn} {Z : Compressor} {cfg : PipelineConfig} {file : SourceFile}
variable {order : List ReceivedChunk} {c : ℕ × Bytes}

def apart (cfg : PipelineConfig) (file : SourceFile) (c : ℕ × Bytes) : Schedule :=
  ⟨someReads cfg file, (clientCut cfg file .new).map fun d => if d = c then 1 else 0⟩

def plainContext : FreshContext :=
  ⟨⟨0, false⟩, none, none, .new, ⟨List.replicate 16 0, by simp⟩, false, 0⟩

end Velcrux.Transfer
