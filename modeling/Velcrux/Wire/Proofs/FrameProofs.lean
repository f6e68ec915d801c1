import Velcrux.Protocol.Proofs.DataFrameProofs
import Velcrux.Wire.Frame
import Velcrux.Wire.Proofs.MessageProofs

/-!
# Frames come back

The reader undoes the framing of every payload that its limits admit, and refuses every other. Which
messages these are follows from the sizes of their layouts.
-/

namespace Velcrux.Wire

open Varint LittleEndian Protocol List Message

/-! ## Sizes -/

theorem length_strField (s : String) : (strField s).length = strSize s := by
  simp [strField, strSize]

theorem length_indicesField (indices : List UInt64) :
    (encodeVarint indices.length).length + (indicesField indices).length = indicesSize indices := by
  simp [indicesField, indicesSize, length_flatMap]

def Sizes (n : ℕ) (x : Except Failure Bytes) : Prop := ∀ b, x = .ok b → b.length = n

theorem sizes_payload {n : ℕ} {fields : List Bytes} (hn : fields.flatten.length = n) :
    Sizes n (payload fields) := by
  intro b h
  obtain ⟨rfl, -⟩ := payload_ok h
  exact hn

theorem Sizes.check {n : ℕ} {k : Unit → Except Failure Bytes} (hk : Sizes n (k ())) {bad : Prop}
    [Decidable bad] {detail : String} : Sizes n (checkField bad detail >>= k) :=
  fun b h => hk b (checkField_bind_ok h).2

theorem sizes_statResult (m : StatResult) : Sizes m.size m.encode := by
  have hfields : 16 + (1 + (1 + (strSize m.status + (strSize m.direction + (strSize m.remotePath +
      (8 + (8 + (8 + (8 + 8))))))))) = m.size := by
    unfold StatResult.size
    omega
  exact (sizes_payload (by simpa [length_strField] using hfields)).check.check.check

theorem length_entriesFields {entries : List StatResult} {fields : List Bytes}
    (h : ListResult.entriesFields entries = .ok fields) :
    fields.flatten.length = (entries.map fun e => varintLen e.size + e.size).sum := by
  induction entries generalizing fields with
  | nil =>
    cases h
    rfl
  | cons e entries ih =>
    obtain ⟨body, hbody, later, hlater, rfl⟩ := entriesFields_cons_ok h
    have hsize := sizes_statResult e body hbody
    rw [flatten_cons, length_append, ih hlater]
    simp [hsize]

theorem sizes_encodePayload (m : Message) : Sizes m.size m.encodePayload := by
  cases m with
  | hello m => exact (sizes_payload (by simp +arith [length_strField, size])).check.check
  | helloAck m => exact (sizes_payload (by simp +arith [length_strField, size])).check
  | auth m => exact (sizes_payload (by simp +arith [size])).check
  | authOk m => exact (sizes_payload (by simp +arith [length_strField, size])).check
  | transferCreate m => exact (sizes_payload (by simp +arith [length_strField, size])).check
  | checkpoint m =>
    have hindices := length_indicesField m.completedChunks
    exact (sizes_payload (by simp [size, ← hindices]; omega)).check
  | resume m => exact (sizes_payload (by simp [length_strField, size])).check
  | resumeState m =>
    have hindices := length_indicesField m.completedChunks
    exact (sizes_payload (by simp [length_strField, size, ← hindices]; omega)).check.check
  | statResult m => exact sizes_statResult m
  | list m => exact (sizes_payload (by simp [length_strField, size])).check
  | listResult m =>
    refine Sizes.check fun b h => ?_
    obtain ⟨fields, hfields, h⟩ := except_bind_ok h
    have hsize := length_entriesFields hfields
    exact sizes_payload (by simp [size, ← hsize]) b h
  | transferBegin m =>
    refine sizes_payload ?_
    simp only [size]
    split_ifs <;> simp
  | chunkQuery m => exact sizes_payload (by simp +arith [size])
  | error m => exact sizes_payload (by simp +arith [length_strField, size])
  | _ =>
    simp only [encodePayload, Ping.encode, SessionOptions.encode, Bye.encode]
    exact sizes_payload (by simp +arith [size])

/-! ## Reading a frame -/

theorem readLength_last {value n : ℕ} {b : UInt8} {bs : Bytes} (buf later : Bytes)
    (hlast : value < 0x80) (henc : [UInt8.ofNat value] = b :: bs) :
    readLength (buf ++ [b]) b n (bs ++ later) = .ok (some (buf ++ b :: bs, later)) := by
  obtain ⟨rfl, rfl⟩ := List.cons.inj henc
  have hb : (UInt8.ofNat value).toNat = value := toNat_ofNat_of_lt (by omega)
  cases later <;> simp [readLength, hb, hlast]

theorem readLength_encodeLoop {rounds n value : ℕ} {b : UInt8} {bs : Bytes} (buf later : Bytes)
    (henc : encodeLoop rounds value = b :: bs) (hvalue : value < 128 ^ (rounds + 1))
    (hn : n + rounds ≤ 10) :
    readLength (buf ++ [b]) b n (bs ++ later) = .ok (some (buf ++ b :: bs, later)) := by
  induction rounds generalizing buf n value b bs with
  | zero =>
    have hlast : value < 0x80 := by simpa using hvalue
    exact readLength_last buf later hlast henc
  | succ rounds ih =>
    by_cases hlast : value < 0x80
    · rw [encodeLoop_of_lt hlast] at henc
      exact readLength_last buf later hlast henc
    · rw [encodeLoop, if_neg hlast] at henc
      obtain ⟨rfl, hbs⟩ := List.cons.inj henc
      have hb : (UInt8.ofNat (value % 0x80 + 0x80)).toNat = value % 0x80 + 0x80 :=
        toNat_ofNat_of_lt (by omega)
      obtain ⟨b', bs', hbs'⟩ : ∃ b' bs', encodeLoop rounds (value / 0x80) = b' :: bs' :=
        exists_cons_of_ne_nil (encodeLoop_ne_nil _ _)
      have hrest : value / 0x80 < 128 ^ (rounds + 1) :=
        (Nat.div_lt_iff_lt_mul (by decide)).2 (by simpa [pow_succ] using hvalue)
      rw [← hbs, hbs', cons_append, readLength, if_neg (by omega), if_neg (by omega),
        ih _ hbs' hrest (by omega), append_assoc]
      rfl

variable (typeByte : UInt8) (flags : UInt16) (requestId : UInt64)

def frameOf (bytes : Bytes) : Frame :=
  ⟨protocolVersion, typeByte, flags, bytes.length, requestId, bytes⟩

theorem drop_encodeFrame (bytes : Bytes) : (encodeFrame typeByte flags requestId bytes).drop 4 =
      encodeVarint bytes.length ++ (u64Field requestId ++ bytes) := by
  rw [encodeFrame, append_assoc, append_assoc, append_assoc, ← append_assoc [_, _]]
  exact drop_left' (by simp)

theorem length_encodeFrame (bytes : Bytes) : (encodeFrame typeByte flags requestId bytes).length =
      headerSizeFor bytes.length + bytes.length := by
  simp [encodeFrame, headerSizeFor]
  omega

theorem decodeFrame_encodeFrame
    {bytes : Bytes} (hle : bytes.length ≤ maxMessageSize) (later : Bytes) :
    decodeFrame (encodeFrame typeByte flags requestId bytes ++ later) =
      .ok (frameOf typeByte flags requestId bytes) := by
  have hlt : bytes.length < 2 ^ 64 := by
    unfold maxMessageSize at hle
    omega
  have hflags : UInt16.ofNat (decodeLE (u16Field flags)) = flags := by
    rw [u16Field, decodeLE_encodeLE_of_lt flags.toNat_lt, UInt16.ofNat_toNat]
  have hid : UInt64.ofNat (decodeLE (u64Field requestId)) = requestId := by
    rw [u64Field, decodeLE_encodeLE_of_lt requestId.toNat_lt, UInt64.ofNat_toNat]
  have hidlen : (u64Field requestId).length = 8 := length_u64Field requestId
  have hlength := length_encodeFrame typeByte flags requestId bytes
  rw [headerSizeFor] at hlength
  set buf := encodeFrame typeByte flags requestId bytes ++ later with hbuf
  have hbuflen : buf.length = 4 + varintLen bytes.length + 8 + bytes.length + later.length := by
    simp [hbuf, hlength]
  -- the parts of the buffer behind each index
  have hdrop4 : buf.drop 4 =
      encodeVarint bytes.length ++ (u64Field requestId ++ (bytes ++ later)) := by
    rw [drop_append_of_le_length (by omega), drop_encodeFrame]
    simp
  have hdropId : buf.drop (4 + varintLen bytes.length) = u64Field requestId ++ (bytes ++ later) := by
    rw [← drop_drop, hdrop4]
    exact drop_left' (length_encodeVarint _)
  have hdropPayload : buf.drop (4 + varintLen bytes.length + 8) = bytes ++ later := by
    rw [← drop_drop, hdropId]
    exact drop_left' hidlen
  have hhead : buf = protocolVersion :: typeByte :: (u16Field flags ++
      (encodeVarint bytes.length ++ (u64Field requestId ++ (bytes ++ later)))) := by
    simp [hbuf, encodeFrame]
  rw [decodeFrame, if_neg (by omega), hdrop4, readVarint_encodeVarint hlt]
  simp only [hdropId, hdropPayload]
  rw [if_neg (by omega), if_neg (by omega), if_neg (by omega)]
  simp only [hhead, headD_cons, drop_succ_cons, drop_zero,
    take_left' (length_u16Field flags), take_left' hidlen, take_left, hflags, hid]
  rfl

/-- What is cut inside its length is refused; every other part of a frame is taken for a beginning. -/
theorem decodeFrame_take {bytes : Bytes} (hle : bytes.length ≤ maxMessageSize) {k : ℕ}
    (hk : k < headerSizeFor bytes.length + bytes.length) :
    decodeFrame ((encodeFrame typeByte flags requestId bytes).take k) =
      if 4 < k ∧ k < 4 + varintLen bytes.length then .error .varintOverflow else .error .empty := by
  have hlt : bytes.length < 2 ^ 64 := by
    unfold maxMessageSize at hle
    omega
  have hlen : ((encodeFrame typeByte flags requestId bytes).take k).length = k := by
    rw [length_take, length_encodeFrame]
    omega
  rw [headerSizeFor] at hk
  rw [decodeFrame, hlen]
  by_cases h4 : k < 4
  · rw [if_pos h4, if_neg (by omega)]
  rw [if_neg h4, drop_take, drop_encodeFrame]
  by_cases hinside : k < 4 + varintLen bytes.length
  · rw [take_append_of_le_length (by simp; omega)]
    by_cases h0 : k = 4
    · subst h0
      simp [readVarint, decodeVarint]
    · rw [if_pos ⟨by omega, hinside⟩, readVarint, decodeVarint_take hlt (by omega) (by omega)]
  · rw [if_neg (by omega), take_append, take_of_length_le (by simp; omega),
      readVarint_encodeVarint hlt]
    dsimp only
    by_cases hheader : k < 4 + varintLen bytes.length + 8
    · rw [if_pos hheader]
    · rw [if_neg hheader, if_neg (by omega), if_pos hk]

theorem frameOf_sendable {f : Frame} (hf : f.Sendable) :
    frameOf f.typeByte f.flags f.requestId f.payload = f := by
  obtain ⟨hv, hl, -⟩ := hf
  cases f
  simp_all [frameOf]

theorem decodeFrames_flatMap {fs : List Frame} (hfs : ∀ f ∈ fs, f.Sendable) :
    decodeFrames (fs.flatMap Frame.encode) = .ok fs := by
  induction fs with
  | nil =>
    rw [decodeFrames]
    rfl
  | cons f fs ih =>
    obtain ⟨hf, hrest⟩ := forall_mem_cons.1 hfs
    have hlen := length_encodeFrame f.typeByte f.flags f.requestId f.payload
    have hframe := decodeFrame_encodeFrame f.typeByte f.flags f.requestId
      (hf.length_eq ▸ hf.length_le : f.payload.length ≤ _) (fs.flatMap Frame.encode)
    rw [frameOf_sendable hf] at hframe
    rw [decodeFrames, flatMap_cons, if_neg, Frame.encode, hframe]
    · dsimp only
      rw [hf.length_eq, drop_left' hlen, ih hrest]
      rfl
    · refine append_ne_nil_of_left_ne_nil (ne_nil_of_length_pos ?_) _
      rw [Frame.encode, hlen, headerSizeFor]
      omega

theorem take_empty_iff {f : Frame} (hf : f.Sendable) :
    (∀ k < f.encode.length, decodeFrame (f.encode.take k) = .error .empty) ↔ f.length < 128 := by
  have htake := fun k => decodeFrame_take f.typeByte f.flags f.requestId (k := k)
    (hf.length_eq ▸ hf.length_le : f.payload.length ≤ _)
  simp only [Frame.encode, length_encodeFrame, hf.length_eq]
  constructor
  · intro hempty
    by_contra hlong
    have hbytes : 1 < varintLen f.payload.length := by
      unfold varintLen
      split_ifs <;> omega
    have hin : 5 < headerSizeFor f.payload.length + f.payload.length := by
      omega
    have h5 := hempty 5 hin
    rw [htake 5 hin, if_pos (by omega)] at h5
    simp at h5
  · intro hshort k hk
    have hbytes : varintLen f.payload.length = 1 := if_pos (by omega)
    rw [htake k hk, if_neg (by omega)]

/-- **Frames parse back from a stream.** Whole frames always do; the parts of one are all taken for a
beginning only when its length has a single byte. -/
theorem frames_parse_back (fs : List Frame) (hfs : ∀ f ∈ fs, f.Sendable) :
    decodeFrames (fs.flatMap Frame.encode) = .ok fs ∧
      ((∀ f ∈ fs, ∀ k < f.encode.length, decodeFrame (f.encode.take k) = .error .empty) ↔
        ∀ f ∈ fs, f.length < 128) :=
  ⟨decodeFrames_flatMap hfs, forall₂_congr fun f hf => take_empty_iff (hfs f hf)⟩

def pingThenBye : List Frame := [⟨1, 0x06, 0, 0, 7, []⟩, ⟨1, 0x07, 0, 4, 8, [7, 0, 0, 0]⟩]

theorem frames_parse_back_pingThenBye :
    decodeFrames (pingThenBye.flatMap Frame.encode) = .ok pingThenBye :=
  (frames_parse_back pingThenBye (forall_mem_cons.2
    ⟨⟨rfl, rfl, by decide⟩, forall_mem_singleton.2 ⟨rfl, rfl, by decide⟩⟩)).1

theorem decodeFrame_cut_length :
    decodeFrame ((encodeFrame 0x06 0 7 (List.replicate 128 0)).take 5) = .error .varintOverflow := by
  rw [decodeFrame_take _ _ _ (by simp [maxMessageSize]) (by simp [headerSizeFor]),
    if_pos (by simp [varintLen])]

theorem readFrame_encodeFrame (Z : Compressor) (typeByte : UInt8) (flags : UInt16)
    (requestId : UInt64) {bytes : Bytes} (hlt : bytes.length < 2 ^ 64) (later : Bytes) :
    readFrame Z (encodeFrame typeByte flags requestId bytes ++ later) =
      if maxMessageSize < bytes.length then
        .error (.protocol (.frameTooLarge bytes.length maxMessageSize))
      else
        match framePayload Z (frameOf typeByte flags requestId bytes) with
        | .error e => .error (.protocol e)
        | .ok out => .ok (some (frameOf typeByte flags requestId out, later)) := by
  obtain ⟨b, bs, hlen⟩ := exists_cons_of_ne_nil (encodeVarint_ne_nil bytes.length)
  set fixed := [protocolVersion, typeByte] ++ u16Field flags with hfixed
  have hfixedLen : fixed.length = 4 := by simp [hfixed]
  set rest := u64Field requestId ++ (bytes ++ later) with hrest
  have hstream : encodeFrame typeByte flags requestId bytes ++ later =
      fixed ++ (b :: (bs ++ rest)) := by
    simp [encodeFrame, hlen, hfixed, hrest]
  have hread := readLength_encodeLoop (n := 1) fixed rest hlen (by omega) (by decide)
  have hheader : fixed ++ b :: bs = fixed ++ encodeVarint bytes.length := by
    rw [hlen]
  have hdeclared : readVarint ((fixed ++ b :: bs).drop 4) =
      .ok (bytes.length, varintLen bytes.length) := by
    rw [hheader, drop_left' hfixedLen]
    simpa using readVarint_encodeVarint hlt []
  have htake : rest.take (8 + bytes.length) = u64Field requestId ++ bytes := by
    rw [hrest, ← append_assoc]
    exact take_left' (by simp)
  have hlater : rest.drop (8 + bytes.length) = later := by
    rw [hrest, ← append_assoc]
    exact drop_left' (by simp)
  have hframe : fixed ++ b :: bs ++ rest.take (8 + bytes.length) =
      encodeFrame typeByte flags requestId bytes := by
    rw [htake, hheader]
    simp [encodeFrame, hfixed]
  have hrestLen : rest.length = 8 + (bytes.length + later.length) := by
    simp [hrest]
  have hhead : (fixed ++ b :: (bs ++ rest)).take 5 = fixed ++ [b] := by
    rfl
  have hfirst : ((fixed ++ b :: (bs ++ rest)).drop 4).headD 0 = b := by
    rfl
  have htail : (fixed ++ b :: (bs ++ rest)).drop 5 = bs ++ rest := by
    rfl
  rw [hstream, readFrame, if_neg (by simp [hfixedLen]; omega), hhead, hfirst, htail, hread]
  simp only [hdeclared, hframe, hlater]
  rw [if_neg (by omega), length_drop]
  by_cases hbig : maxMessageSize < bytes.length
  · rw [if_pos hbig, if_pos hbig]
  · have hdecode := decodeFrame_encodeFrame typeByte flags requestId (not_lt.1 hbig) []
    rw [append_nil] at hdecode
    rw [if_neg hbig, if_neg hbig, if_neg (by omega), hdecode]
    rfl

/-! ## Which messages can be received -/

theorem encodeMessageCompressed_ok {Z : Compressor} {m : Message} {requestId : UInt64} {c : Bool}
    {buf : Bytes} (h : encodeMessageCompressed Z m requestId c = .ok buf) :
    ∃ typeByte bytes, m.encode = .ok (typeByte, bytes) ∧ buf.length ≤ isizeMax ∧
      buf = match sentCompressed Z c bytes with
        | some z => encodeFrame typeByte flagsCompressed requestId z
        | none => encodeFrame typeByte flagsNone requestId bytes := by
  obtain ⟨⟨typeByte, bytes⟩, hm, h⟩ := except_bind_ok h
  refine ⟨typeByte, bytes, hm, ?_⟩
  simp only at h
  split_ifs at h with hsize
  cases h
  exact ⟨not_lt.1 hsize, rfl⟩

theorem length_le_encodeFrame
    (bytes : Bytes) : bytes.length ≤ (encodeFrame typeByte flags requestId bytes).length := by
  simp [encodeFrame]
  omega

/-- A frame is received exactly if its payload is short enough and can be unpacked. -/
theorem receives_iff {Z : Compressor} {typeByte : UInt8} {flags : UInt16} {requestId : UInt64}
    {sent bytes : Bytes} (hlt : sent.length < 2 ^ 64)
    (hunpack : ∀ out, framePayload Z (frameOf typeByte flags requestId sent) = .ok out →
      out = bytes) :
    (∀ later, ∃ frame,
      readFrame Z (encodeFrame typeByte flags requestId sent ++ later) = .ok (some (frame, later)) ∧
        frame.typeByte = typeByte ∧ frame.requestId = requestId ∧
        decode frame.typeByte frame.payload = decode typeByte bytes) ↔
      sent.length ≤ maxMessageSize ∧
        framePayload Z (frameOf typeByte flags requestId sent) = .ok bytes := by
  constructor
  · intro hall
    obtain ⟨frame, hread, -⟩ := hall []
    rw [readFrame_encodeFrame Z typeByte flags requestId hlt] at hread
    split_ifs at hread with hbig
    refine ⟨not_lt.1 hbig, ?_⟩
    cases hp : framePayload Z (frameOf typeByte flags requestId sent) with
    | error e => simp [hp] at hread
    | ok out => rw [hunpack out hp]
  · rintro ⟨hsmall, hp⟩ later
    refine ⟨frameOf typeByte flags requestId bytes, ?_, rfl, rfl, rfl⟩
    rw [readFrame_encodeFrame Z typeByte flags requestId hlt, if_neg (not_lt.2 hsmall), hp]

/-- A message that is encoded can be received exactly if its size keeps the limits of the reader. -/
theorem receivable_iff (Z : Compressor) (m : Message) (requestId : UInt64) (c : Bool) (buf : Bytes)
    (h : encodeMessageCompressed Z m requestId c = .ok buf) :
    Receivable Z m requestId buf ↔
      ∀ typeByte bytes, m.encode = .ok (typeByte, bytes) →
        WithinLimits m.size (sentCompressed Z c bytes) := by
  obtain ⟨typeByte, bytes, hm, hsize, rfl⟩ := encodeMessageCompressed_ok h
  have hlen : bytes.length = m.size := sizes_encodePayload m bytes (encode_ok hm).2
  have hone : ∀ {p : UInt8 → Bytes → Prop},
      (∀ t b, m.encode = .ok (t, b) → p t b) ↔ p typeByte bytes := by
    refine ⟨fun hall => hall _ _ hm, fun hp t b htb => ?_⟩
    rw [hm] at htb
    cases htb
    exact hp
  unfold Receivable
  rw [hone, hone]
  cases hz : sentCompressed Z c bytes with
  | none =>
    simp only [hz] at hsize ⊢
    have hle := length_le_encodeFrame typeByte flagsNone requestId bytes
    have hp : framePayload Z (frameOf typeByte flagsNone requestId bytes) = .ok bytes := by
      simp [framePayload, frameOf, flagsNone]
    rw [receives_iff (by unfold isizeMax at hsize; omega) fun out hout => by
      rw [hp] at hout
      exact (Except.ok.inj hout).symm]
    simp [hp, WithinLimits, hlen]
  | some z =>
    simp only [hz] at hsize ⊢
    have hle := length_le_encodeFrame typeByte flagsCompressed requestId z
    have hform : compressIfBeneficial Z bytes defaultMinSavings = some z := by
      cases c with
      | false => cases hz
      | true => exact hz
    obtain ⟨⟨level, hlevel⟩, -⟩ := compressIfBeneficial_form hform
    have hp : ∀ out, framePayload Z (frameOf typeByte flagsCompressed requestId z) = .ok out ↔
        out = bytes ∧ bytes.length ≤ maxBatchDecompressedBytes ∧
          WithinRatio bytes.length z.length 500 := by
      intro out
      rw [← decompressPayloadBounded_eq_ok_iff _ _ hlevel]
      simp [framePayload, frameOf, flagsCompressed]
    rw [receives_iff (by unfold isizeMax at hsize; omega) fun out hout => ((hp out).1 hout).1, hp]
    simp [WithinLimits, WithinRatio, hlen]

theorem receivable_iff_bye :
    encodeMessageCompressed idleCompressor (.bye ⟨7⟩) 1 true =
      .ok [1, 7, 0, 0, 4, 1, 0, 0, 0, 0, 0, 0, 0, 7, 0, 0, 0] ∧
    (Receivable idleCompressor (.bye ⟨7⟩) 1 [1, 7, 0, 0, 4, 1, 0, 0, 0, 0, 0, 0, 0, 7, 0, 0, 0] ↔
      ∀ typeByte bytes, (bye ⟨7⟩).encode = .ok (typeByte, bytes) →
        WithinLimits 4 (sentCompressed idleCompressor true bytes)) :=
  ⟨by decide, receivable_iff idleCompressor (.bye ⟨7⟩) 1 true _ (by decide)⟩

theorem refused_of_length {q : ChunkQuery} (hq : q.chunkHashes.length = 2 ^ 15) : ∃ buf,
    encodeMessageCompressed idleCompressor (.chunkQuery q) 1 false = .ok buf ∧
      readFrame idleCompressor buf = .error (.protocol (.frameTooLarge 1048603 1048576)) := by
  obtain ⟨bytes, hbytes⟩ := chunkQuery_encode (by rw [hq]; decide)
  have hlen : bytes.length = 1048603 := by
    rw [sizes_encodePayload (.chunkQuery q) bytes hbytes]
    simp only [size, hq]
    decide
  have hframe : (encodeFrame 0x34 flagsNone 1 bytes).length ≤ isizeMax := by
    simp [encodeFrame, hlen, isizeMax]
    decide
  refine ⟨encodeFrame 0x34 flagsNone 1 bytes, ?_, ?_⟩
  · have hm : (chunkQuery q).encode = .ok (0x34, bytes) := by
      simp only [encode, encodePayload, hbytes]
      rfl
    simp only [encodeMessageCompressed, hm]
    exact if_neg (not_lt.2 hframe)
  · have hlt : bytes.length < 2 ^ 64 := by omega
    have hread := readFrame_encodeFrame idleCompressor 0x34 flagsNone 1 hlt []
    rw [append_nil, hlen] at hread
    exact hread

def fileQuery : ChunkQuery := ⟨.zero, 0, List.replicate (2 ^ 15) .zero⟩

/-- The query is encoded, and refused as too large. -/
theorem not_receivable_fileQuery : ∃ buf,
    encodeMessageCompressed idleCompressor (.chunkQuery fileQuery) 1 false = .ok buf ∧
      readFrame idleCompressor buf = .error (.protocol (.frameTooLarge 1048603 1048576)) :=
  refused_of_length length_replicate

end Velcrux.Wire
