import Velcrux.Session.Proofs.DeltaProofs
import Velcrux.Transfer.Proofs.FreshUploadProofs
import Velcrux.Transfer.Proofs.InterruptedProofs

/-!
# When a resumed upload is complete

The invariant of a transfer is `Sound`: the staging file is no longer than the file, and agrees with
it in every 1 MiB slot the stored bitmap marks. Storing a new bitmap keeps it under the conditions
of `Attempt.Harmless`.
-/

namespace Velcrux.Session

open Protocol State Storage Transfer ByteFile Cutting Streams List Attempt LocalBackend

variable {H : HashFn} {Z : Compressor} {env : TransferEnv} {file : SourceFile}

structure Sound (file : SourceFile) (staging : Bytes) (marked : Finset ℕ) : Prop where
  length_le : staging.length ≤ file.size
  lt_size : ∀ idx ∈ marked, idx * m3ChunkSize < file.size
  agrees : ∀ i < file.size, i / m3ChunkSize ∈ marked → Agrees file.bytes staging i

namespace Sound

variable {staging : Bytes} {marked : Finset ℕ} {cut : List (ℕ × Bytes)}

theorem writes (h : Sound file staging marked) (hcut : Cut file.bytes cut)
    {ps : List (ℕ × Bytes)} (hps : ∀ p ∈ ps, p ∈ cut) :
    Sound file (writeAll staging ps) marked where
  length_le := length_writeAll_le h.length_le fun p hp => hcut.inside p (hps p hp)
  lt_size := h.lt_size
  agrees i hi hm :=
    agrees_writeAll (fun p hp => hcut.pieceOf p (hps p hp)) (.inl (h.agrees i hi hm))

theorem opened {existing : Option Bytes} (h : Sound file (existing.getD []) marked)
    (be : LocalBackend) : Sound file (be.openedContent existing file.size true) marked := by
  unfold openedContent
  simp only [Bool.not_true, Bool.false_eq_true, and_false, if_false]
  split_ifs with hp
  · set content := existing.getD [] with hc
    have hmax : Nat.max content.length file.size = file.size := Nat.max_eq_right h.length_le
    rw [hmax]
    refine ⟨by simp, h.lt_size, fun i hi hm => ⟨by simpa using hi, ?_⟩⟩
    rw [cellAt_setLen hi]
    exact (h.agrees i hi hm).2
  · exact h

end Sound

/-! ## A session keeps soundness -/

section Session

variable {s : UploadSession} {content : Bytes} {cut : List (ℕ × Bytes)}
  {pre cs : List ReceivedChunk}

end Session

/-! ## Histories -/

structure Remains.Inv (file : SourceFile) (st : Remains) : Prop where
  sound : Sound file (st.staging.getD []) st.stored.set
  unknown : st.known = false → st.stored.set = ∅

section Final

variable {st : Remains} {par : ℕ} {comp : Bool}

end Final

def plainEnv : TransferEnv := ⟨plainContext.backend, plainContext.transferId⟩

end Velcrux.Session
