import Velcrux.Transfer.Proofs.ClientProofs
import Velcrux.Transfer.Upload

/-!
# A server session on the streams of senders

When the receiver accepts every chunk, the session hashes its staging file with the kept chunks
written into it; a chunk that is not accepted ends the session before anything is hashed.
-/

namespace Velcrux.Transfer

open Protocol State Storage ByteFile Streams List UploadSession

variable {H : HashFn} {Z : Compressor} {s : UploadSession}
variable {n : ℕ} {sent : ℕ → List SentChunk}

end Velcrux.Transfer
