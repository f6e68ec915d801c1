import Velcrux.Foundations.Streams
import Velcrux.Protocol.Proofs.DataFrameProofs
import Velcrux.Transfer.Receive

/-!
# What the receiver makes of the frames of a sender

A frame that a sender built for a chunk is read back as that chunk when it keeps the limits of the
receiver (`Accepted`), and otherwise ends the stream with an error.
-/

namespace Velcrux.Transfer

open Protocol State ByteFile Streams List

variable {H : HashFn} {Z : Compressor}

/-! ## Frames of a sender -/

structure SentChunk where
  offset : ℕ
  data : Bytes
  form : Option Bytes
deriving DecidableEq

variable {c : SentChunk} {cs : List SentChunk} {fuel chunkSize : ℕ}

namespace SentChunk

def frame (H : HashFn) (c : SentChunk) : Bytes := encodeChosen c.offset (H c.data) c.data c.form

def wire (c : SentChunk) : Bytes := c.form.getD c.data

def received (c : SentChunk) : ReceivedChunk := ⟨c.offset, c.wire.length, false, c.data⟩

structure WellFormed (Z : Compressor) (c : SentChunk) : Prop where
  offset_lt : c.offset < 2 ^ 64
  data_ne : c.data ≠ []
  form_of : ∀ z, c.form = some z →
    (∃ level, Z.encodeAll c.data level = some z) ∧ z.length + defaultMinSavings ≤ c.data.length

def Accepted (c : SentChunk) : Prop :=
  c.data.length ≤ maxChunkSize ∧ ∀ z, c.form = some z → WithinRatio c.data.length z.length 500

end SentChunk

open SentChunk

instance (c : SentChunk) : Decidable c.Accepted :=
  match h : c.form with
  | none => decidable_of_iff (c.data.length ≤ maxChunkSize)
      ⟨fun h' => ⟨h', fun z hz => by simp [h] at hz⟩, fun h' => h'.1⟩
  | some z => decidable_of_iff
      (c.data.length ≤ maxChunkSize ∧ WithinRatio c.data.length z.length 500)
      ⟨fun h' => ⟨h'.1, fun z' hz => by
        obtain rfl : z = z' := by simpa [h] using hz
        exact h'.2⟩, fun h' => ⟨h'.1, h'.2 z h⟩⟩

theorem readExact_append {n : ℕ} {xs ys : Bytes} (h : xs.length = n) :
    readExact n (xs ++ ys) = some (xs, ys) := by
  unfold readExact
  rw [if_neg (by simp; omega), take_left' h, drop_left' h]

def flagsOf : Option Bytes → DataFrameFlags
  | some _ => .compressedFlag
  | none => .none

theorem flagsOf_isHole (f : Option Bytes) : (flagsOf f).isHole = false := by
  cases f <;> simp only [flagsOf] <;> rfl

theorem flagsOf_lt (f : Option Bytes) : (flagsOf f).bits < 2 ^ 16 := by
  cases f <;> simp [flagsOf, DataFrameFlags.none, DataFrameFlags.compressedFlag]

theorem frame_eq (c : SentChunk) :
    c.frame H = encodeDataFrameHeader ⟨c.offset, c.wire.length, flagsOf c.form, H c.data⟩ ++ c.wire := by
  unfold frame wire
  have hhole := flagsOf_isHole c.form
  cases hf : c.form <;> rw [hf] at hhole <;> simp_all [encodeChosen, encodeDataFrame, flagsOf]

theorem length_wire_le (hw : c.WellFormed Z) : c.wire.length ≤ c.data.length := by
  unfold wire
  cases hf : c.form with
  | none => simp
  | some z =>
    have := (hw.form_of z hf).2
    simp only [Option.getD_some]
    omega

/-- What the receiver takes for the data of a chunk that came as `payload`. -/
def sentContent (Z : Compressor) (form : Option Bytes) (payload : Bytes) : Except VelcruxError Bytes :=
  match form with
  | none => .ok payload
  | some _ => (decompressPayloadBounded Z payload maxChunkSize (some 500)).mapError .protocol

theorem chunkContent_eq {hdr : DataFrameHeader} {form : Option Bytes}
    (hflags : hdr.flags = flagsOf form) (payload : Bytes) : chunkContent H Z hdr payload =
      (sentContent Z form payload).map fun data => (data, H data) := by
  unfold chunkContent
  rw [hflags, if_neg (by simp [flagsOf_isHole])]
  cases form with
  | none => rfl
  | some z =>
    rw [sentContent, if_pos (by simp only [flagsOf]; rfl)]
    cases decompressPayloadBounded Z payload maxChunkSize (some 500) <;> rfl

/-- The receiver reads as many bytes as the low 32 bits of the length say. -/
theorem readFrame_frame (hw : c.WellFormed Z) {n : ℕ} (hn : n = c.wire.length % 2 ^ 32)
    (rest : Bytes) : readFrame H Z (c.frame H ++ rest) =
      if dataMaxChunkLen < n then .error (.protocol (.malformed "data frame: chunk_len > max"))
      else
        match sentContent Z c.form (c.wire.take n) with
        | .error e => .error e
        | .ok data =>
          if H data ≠ H c.data then .error (.protocol (.malformed "upload: chunk hash mismatch"))
          else .ok (some (⟨c.offset, n, false, data⟩, c.wire.drop n ++ rest)) := by
  have hle : n ≤ c.wire.length := hn ▸ Nat.mod_le _ _
  have hread : readExact n (c.wire ++ rest) = some (c.wire.take n, c.wire.drop n ++ rest) := by
    unfold readExact
    rw [if_neg (by simp; omega), take_append_of_le_length hle, drop_append_of_le_length hle]
  unfold readFrame
  rw [frame_eq, append_assoc, readExact_append (length_encodeDataFrameHeader _)]
  dsimp only
  rw [decodeDataFrameHeader_encode _ hw.offset_lt (flagsOf_lt _), ← hn]
  split_ifs with hmax
  · rfl
  dsimp only
  rw [flagsOf_isHole, if_neg (by simp), hread]
  dsimp only
  rw [chunkContent_eq rfl]
  cases sentContent Z c.form (c.wire.take n) <;> rfl

theorem readFrame_frame_of_accepted (hw : c.WellFormed Z) (ha : c.Accepted)
    (rest : Bytes) : readFrame H Z (c.frame H ++ rest) = .ok (some (c.received, rest)) := by
  have hmax : c.wire.length ≤ dataMaxChunkLen := Nat.le_trans (length_wire_le hw) ha.1
  have hmod : c.wire.length = c.wire.length % 2 ^ 32 :=
    (Nat.mod_eq_of_lt (by unfold dataMaxChunkLen at hmax; omega)).symm
  have hcontent : sentContent Z c.form c.wire = .ok c.data := by
    unfold wire
    cases hf : c.form with
    | none => rfl
    | some z =>
      obtain ⟨⟨level, hz⟩, -⟩ := hw.form_of z hf
      have hd := (decompressPayloadBounded_encodeAll hz).1 ⟨ha.1, ha.2 z hf⟩
      rw [Option.getD_some, sentContent, hd]
      rfl
  rw [readFrame_frame hw hmod, if_neg (by omega), take_length, hcontent]
  simp [received]

def sizeHash : HashFn := fun d => if d.length < 2 ^ 32 then .repeated 1 else .repeated 2

theorem readFrame_frame_of_exceeds (hw : c.WellFormed Z) (ha : ¬ c.Accepted)
    (hbig : c.wire.length < 2 ^ 32) (rest : Bytes) :
    ∃ e, readFrame H Z (c.frame H ++ rest) = .error e := by
  rw [readFrame_frame hw (Nat.mod_eq_of_lt hbig).symm]
  split_ifs with hmax
  · exact ⟨_, rfl⟩
  rw [take_length, wire]
  have hm : maxChunkSize = dataMaxChunkLen := rfl
  cases hf : c.form with
  | none =>
    refine absurd ⟨?_, by simp [hf]⟩ ha
    rw [wire, hf, Option.getD_none] at hmax
    omega
  | some z =>
    obtain ⟨⟨level, hz⟩, -⟩ := hw.form_of z hf
    have hna : ¬ (c.data.length ≤ maxChunkSize ∧ WithinRatio c.data.length z.length 500) := by
      rintro ⟨h1, h2⟩
      refine ha ⟨h1, fun z' hz' => ?_⟩
      obtain rfl : z = z' := by simpa [hf] using hz'
      exact h2
    obtain ⟨e, he⟩ := (decompressPayloadBounded_encodeAll hz).2 hna
    rw [Option.getD_some, sentContent, he]
    exact ⟨_, rfl⟩

theorem length_frame (c : SentChunk) : dataFrameHeaderLen ≤ (c.frame H).length := by
  rw [frame_eq, length_append, length_encodeDataFrameHeader]
  omega

def slotOf (chunkSize : ℕ) (c : ReceivedChunk) : ℕ := c.offset / chunkSize

def writeOf (c : ReceivedChunk) : ℕ × Bytes := (c.offset, c.data)

theorem receiveChunk_marked {r : Receiver} {c : ReceivedChunk}
    (h : slotOf chunkSize c ∈ r.bitmap.set) : receiveChunk chunkSize false r c = r := by
  unfold receiveChunk
  rw [if_neg]
  simpa [slotOf] using h

theorem receiveChunk_unmarked {r : Receiver} {c : ReceivedChunk}
    (h : slotOf chunkSize c ∉ r.bitmap.set) :
    receiveChunk chunkSize false r c =
      ⟨if c.isHole then r.staging else writeAt r.staging c.offset c.data,
        r.bitmap.markComplete (slotOf chunkSize c) c.chunkLen⟩ := by
  unfold receiveChunk
  rw [if_pos (by simpa [slotOf] using h)]
  rfl

theorem receiveAll_cons (chunkSize : ℕ) (isStreaming : Bool) (r : Receiver) (c : ReceivedChunk)
    (cs : List ReceivedChunk) :
    receiveAll chunkSize isStreaming r (c :: cs) =
      receiveAll chunkSize isStreaming (receiveChunk chunkSize isStreaming r c) cs := rfl

end Velcrux.Transfer
